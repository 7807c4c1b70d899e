import LinearRelations.Proofs.Plain

/-!
# Number literals

A literal is written with the ten digits of ASCII, with single underscores between them: digits with
an optional point and an optional power of ten, or an integer, which does not begin with a zero
unless it is zero. A plain numeral is a literal for the same number, except where it has digits of
another script, or where it is an integer other than zero that begins with a zero.

* `Snippet.literal?`: the literal at the start of a text, with its number;
* `Operand.IsLiteral`: the numerals that are literals;
* `Operand.literal?_of_isLiteral`: they are literals for the numbers that they are read as;
* `Operand.literal?_of_not_isLiteral`: the other numerals are none.
-/

namespace LinearRelations

open Text (digitValue? isLetterOrDigit Numeral)

namespace Snippet

/-! ### The grammar of literals -/

/-- Digits, with single underscores between them, after a digit; and the rest. -/
def moreDigits : List Char → List Nat × List Char
  | [] => ([], [])
  | c :: rest =>
    if c.isDigit then ((c.toNat - 48) :: (moreDigits rest).1, (moreDigits rest).2)
    else match rest with
      | [] => ([], [c])
      | d :: rest' =>
        if c = '_' ∧ d.isDigit then ((d.toNat - 48) :: (moreDigits rest').1, (moreDigits rest').2)
        else ([], c :: d :: rest')

/-- The digits at the start of a text, and the rest. -/
def digitPart : List Char → List Nat × List Char
  | [] => ([], [])
  | c :: rest =>
    if c.isDigit then ((c.toNat - 48) :: (moreDigits rest).1, (moreDigits rest).2) else ([], c :: rest)

/-- The digits after a point at the start of a text, if there is a point, and the rest. -/
def pointPart : List Char → Option (List Nat) × List Char
  | [] => (none, [])
  | c :: rest => if c = '.' then (some (digitPart rest).1, (digitPart rest).2) else (none, c :: rest)

/-- The power of ten at the start of a text, if there is one, and the rest. -/
def powerPart : List Char → Option Int × List Char
  | [] => (none, [])
  | c :: rest =>
    if c = 'e' ∨ c = 'E' then
      let (negative, after) := Numeral.sign rest
      match digitPart after with
      | ([], _) => (none, c :: rest)
      | (ds, rest') =>
        (some (if negative then -(Numeral.ofDigits ds : Int) else Numeral.ofDigits ds), rest')
    else (none, c :: rest)

/-- The quotation mark. -/
def quote : Char := '\x27'

/-- Whether a text starts with a character that a word can go on with: nothing of the kind may stand
directly behind a name or a number. -/
def goesOn : List Char → Bool
  | [] => false
  | c :: _ => isLetterOrDigit c || c == '.' || c == quote || 127 < c.toNat

/-- The literal at the start of a text, with the number that it writes, and the rest. -/
def literal? (cs : List Char) : Option (Rat × List Char) :=
  let (whole, rest) := digitPart cs
  let (parts?, rest) := pointPart rest
  let (power?, rest) := powerPart rest
  let digits := whole ++ parts?.getD []
  let isPadded := whole.head? == some 0 && Numeral.ofDigits whole != 0 && parts?.isNone && power?.isNone
  if digits.isEmpty || isPadded || goesOn rest then none
  else some (Numeral.ofDigits digits * 10 ^ (power?.getD 0 - (parts?.getD []).length), rest)

/-- What can stand behind an operand: nothing, a blank, or the end of a group. -/
def Ends : List Char → Prop
  | [] => True
  | c :: _ => c = ' ' ∨ c = ')'

example : literal? ['1', '_', '0', '.', '5', 'e', '-', '3', ')'] = some (105 / 10000, [')']) := by decide +kernel

/-! ### Digits -/

/-- The digits of ASCII are the only ones among its characters. -/
theorem digitValue?_of_lt {c : Char} (h : c.toNat < 128) :
    digitValue? c = if c.isDigit then some (c.toNat - 48) else none := by
  split
  · next hdigit => exact Text.digitValue?_of_isDigit hdigit
  · next hdigit =>
    have hzeros : ∀ base ∈ Text.zeros, base = 48 ∨ 128 ≤ base := by decide
    rw [Char.isDigit_iff_toNat, show '0'.toNat = 48 from rfl, show '9'.toNat = 57 from rfl] at hdigit
    rw [digitValue?, Option.map_eq_none_iff, List.find?_eq_none]
    intro base hbase
    rw [Bool.and_eq_true, decide_eq_true_eq, decide_eq_true_eq]
    rcases hzeros base hbase with rfl | hle
    · omega
    · omega

theorem of_digitValue?_eq_some {c : Char} {d : Nat} (h : c.toNat < 128) (hd : digitValue? c = some d) :
    c.isDigit = true ∧ c.toNat - 48 = d := by
  rw [digitValue?_of_lt h] at hd
  obtain ⟨hc, hd⟩ := Option.ite_none_right_eq_some.1 hd
  exact ⟨hc, Option.some.inj hd⟩

theorem of_digitValue?_eq_none {c : Char} (h : c.toNat < 128) (hd : digitValue? c = none) :
    ¬ c.isDigit = true := by
  intro hc
  rw [digitValue?_of_lt h, if_pos hc] at hd
  cases hd

theorem moreDigits_of_isDigit {c : Char} (hc : c.isDigit = true) (rest : List Char) :
    moreDigits (c :: rest) = ((c.toNat - 48) :: (moreDigits rest).1, (moreDigits rest).2) := by
  rw [moreDigits.eq_def]
  exact if_pos hc

theorem moreDigits_underscore {d : Char} (hd : d.isDigit = true) (rest : List Char) :
    moreDigits ('_' :: d :: rest) = ((d.toNat - 48) :: (moreDigits rest).1, (moreDigits rest).2) := by
  rw [moreDigits.eq_def]
  exact (if_neg (by decide)).trans (if_pos ⟨rfl, hd⟩)

/-- Digits end where no digit follows, behind an underscore or not. -/
theorem moreDigits_eq_nil {c : Char} {rest : List Char} (hc : ¬ c.isDigit = true)
    (h : ∀ d ∈ rest.head?, ¬ (c = '_' ∧ d.isDigit = true)) : moreDigits (c :: rest) = ([], c :: rest) := by
  rw [moreDigits.eq_def]
  rcases rest with _ | ⟨d, rest⟩
  · exact if_neg hc
  · exact (if_neg hc).trans (if_neg (h d rfl))

/-- Without a point there is no fraction. -/
theorem fraction_of_head?_ne {cs : List Char} (h : cs.head? ≠ some '.') : Numeral.fraction cs = ([], cs) := by
  unfold Numeral.fraction
  split
  · exact absurd rfl h
  · rfl

section Ends

variable {tail : List Char} (htail : Ends tail)

include htail

theorem not_isDigit_of_ends : ∀ c ∈ tail.head?, ¬ c.isDigit = true := by
  rcases tail with _ | ⟨c, tail⟩
  · simp
  · rcases htail with rfl | rfl <;> simp

theorem goesOn_of_ends : goesOn tail = false := by
  rcases tail with _ | ⟨c, tail⟩
  · rfl
  · rcases htail with rfl | rfl <;> rfl

theorem moreDigits_of_ends : moreDigits tail = ([], tail) := by
  rcases tail with _ | ⟨c, tail⟩
  · rfl
  · refine moreDigits_eq_nil (not_isDigit_of_ends htail c rfl) fun d _ h => ?_
    rcases htail with rfl | rfl <;> exact absurd h.1 (by decide)

/-- On ASCII text, digits of any script are the digits of literals. -/
theorem moreDigits_append {cs : List Char} (hcs : ∀ c ∈ cs, c.toNat < 128) :
    moreDigits (cs ++ tail) = ((Numeral.moreDigits cs).1, (Numeral.moreDigits cs).2 ++ tail) := by
  fun_induction Numeral.moreDigits cs with
  | case1 => exact moreDigits_of_ends htail
  | case2 c d hd =>
    obtain ⟨hc, rfl⟩ := of_digitValue?_eq_some (hcs c (by simp)) hd
    rw [List.singleton_append, moreDigits_of_isDigit hc, moreDigits_of_ends htail]
    rfl
  | case3 c hd =>
    have hc := of_digitValue?_eq_none (hcs c (by simp)) hd
    exact moreDigits_eq_nil hc fun d hd h => not_isDigit_of_ends htail d hd h.2
  | case4 c c' rest d hd ds rest' hmore ih =>
    obtain ⟨hc, rfl⟩ := of_digitValue?_eq_some (hcs c (by simp)) hd
    rw [hmore] at ih
    rw [List.cons_append, moreDigits_of_isDigit hc, ih fun x hx => hcs x (List.mem_cons_of_mem _ hx)]
  | case5 c c' rest hd d hd' hunder ds rest' hmore ih =>
    obtain ⟨hc', rfl⟩ := of_digitValue?_eq_some (hcs c' (by simp)) hd'
    obtain rfl := beq_iff_eq.1 hunder
    rw [hmore] at ih
    rw [List.cons_append, List.cons_append, moreDigits_underscore hc',
      ih fun x hx => hcs x (List.mem_cons_of_mem _ (List.mem_cons_of_mem _ hx))]
  | case6 c c' rest hd hnot =>
    have hc := of_digitValue?_eq_none (hcs c (by simp)) hd
    refine moreDigits_eq_nil hc fun x hx h => ?_
    obtain rfl : c' = x := Option.some.inj hx
    exact hnot _ (beq_iff_eq.2 h.1) (Text.digitValue?_of_isDigit h.2)

theorem digitPart_append {cs : List Char} (hcs : ∀ c ∈ cs, c.toNat < 128) :
    digitPart (cs ++ tail) = ((Numeral.digits cs).1, (Numeral.digits cs).2 ++ tail) := by
  rcases cs with _ | ⟨c, cs⟩
  · rcases tail with _ | ⟨c, tail⟩
    · rfl
    · exact if_neg (not_isDigit_of_ends htail c rfl)
  · have hc := hcs c List.mem_cons_self
    rw [List.cons_append, digitPart, Numeral.digits]
    rcases hd : digitValue? c with _ | d
    · rw [if_neg (of_digitValue?_eq_none hc hd)]
      rfl
    · obtain ⟨hdigit, rfl⟩ := of_digitValue?_eq_some hc hd
      rw [if_pos hdigit, moreDigits_append htail fun x hx => hcs x (List.mem_cons_of_mem _ hx)]

/-! ### Point and power of ten -/

theorem pointPart_append {cs : List Char} (hcs : ∀ c ∈ cs, c.toNat < 128) :
    pointPart (cs ++ tail) = (if cs.head? = some '.' then some (Numeral.fraction cs).1 else none,
      (Numeral.fraction cs).2 ++ tail) := by
  by_cases hpoint : cs.head? = some '.'
  · rw [if_pos hpoint]
    obtain ⟨cs, rfl⟩ := List.head?_eq_some_iff.1 hpoint
    rw [List.cons_append, pointPart, if_pos rfl,
      digitPart_append htail fun x hx => hcs x (List.mem_cons_of_mem _ hx)]
    rfl
  · rw [if_neg hpoint, fraction_of_head?_ne hpoint]
    rcases cs with _ | ⟨c, cs⟩
    · rcases tail with _ | ⟨c, tail⟩
      · rfl
      · rcases htail with rfl | rfl <;> rfl
    · exact if_neg fun hc => hpoint (by rw [hc, List.head?_cons])

theorem sign_append (cs : List Char) :
    Numeral.sign (cs ++ tail) = ((Numeral.sign cs).1, (Numeral.sign cs).2 ++ tail) := by
  rcases cs with _ | ⟨c, cs⟩
  · rcases tail with _ | ⟨c, tail⟩
    · rfl
    · rcases htail with rfl | rfl <;> rfl
  · rw [List.cons_append]
    unfold Numeral.sign
    split <;> simp_all

theorem powerPart_append {cs : List Char} (hcs : ∀ c ∈ cs, c.toNat < 128) {k : Int}
    (hk : Numeral.exponent? cs = some k) :
    powerPart (cs ++ tail) = (if cs = [] then none else some k, tail) := by
  rcases cs with _ | ⟨c, cs⟩
  · rcases tail with _ | ⟨c, tail⟩
    · rfl
    · rcases htail with rfl | rfl <;> rfl
  · have hsub : ∀ x ∈ (Numeral.sign cs).2, x.toNat < 128 := by
      intro x hx
      refine hcs x (List.mem_cons_of_mem _ ?_)
      unfold Numeral.sign at hx
      split at hx
      · exact List.mem_cons_of_mem _ hx
      · exact List.mem_cons_of_mem _ hx
      · exact hx
    rw [if_neg (List.cons_ne_nil c cs)]
    unfold Numeral.exponent? at hk
    split at hk
    · next h => cases h
    next c' rest heq =>
    obtain ⟨rfl, rfl⟩ := List.cons.inj heq
    obtain ⟨hc, hk⟩ := Option.ite_none_right_eq_some.1 hk
    rw [List.cons_append, powerPart, if_pos hc]
    simp only [sign_append htail, digitPart_append htail hsub]
    simp only at hk
    split at hk
    · cases hk
    · next ds hne heq =>
      rw [heq]
      rcases ds with _ | ⟨d, ds⟩
      · exact absurd rfl hne
      · exact Prod.ext hk rfl
    · cases hk

end Ends

/-! ### What a literal takes -/

/-- The characters that occur in literals. -/
def isLiteralChar (c : Char) : Bool := isLetterOrDigit c || c == '.' || c == '+' || c == '-'

/-- The second text is what is left of the first one when characters of literals are taken from it. -/
def Takes (cs rest : List Char) : Prop := ∃ taken, cs = taken ++ rest ∧ ∀ c ∈ taken, isLiteralChar c = true

namespace Takes

theorem refl (cs : List Char) : Takes cs cs := ⟨[], rfl, by simp⟩

theorem cons {c : Char} {cs rest : List Char} (hc : isLiteralChar c = true) (h : Takes cs rest) :
    Takes (c :: cs) rest := by
  obtain ⟨taken, rfl, htaken⟩ := h
  exact ⟨c :: taken, rfl, List.forall_mem_cons.2 ⟨hc, htaken⟩⟩

theorem trans {cs ds rest : List Char} (h : Takes cs ds) (h' : Takes ds rest) : Takes cs rest := by
  obtain ⟨taken, rfl, htaken⟩ := h
  obtain ⟨taken', rfl, htaken'⟩ := h'
  refine ⟨taken ++ taken', (List.append_assoc ..).symm, fun c hc => ?_⟩
  exact (List.mem_append.1 hc).elim (htaken c) (htaken' c)

end Takes

theorem isLiteralChar_of_isDigit {c : Char} (h : c.isDigit = true) : isLiteralChar c = true := by
  simp [isLiteralChar, isLetterOrDigit, Char.isAlphanum, h]

theorem lt_of_isLiteralChar {c : Char} (h : isLiteralChar c = true) : c.toNat < 128 := by
  have h9 : '9'.val.toNat = 57 := rfl
  have hZ : 'Z'.val.toNat = 90 := rfl
  have hz : 'z'.val.toNat = 122 := rfl
  have hval : c.toNat = c.val.toNat := rfl
  simp only [isLiteralChar, isLetterOrDigit, Char.isAlphanum, Char.isAlpha, Bool.or_eq_true, beq_iff_eq] at h
  rcases h with (((((h | h) | h) | rfl) | rfl) | rfl) | rfl
  · simp only [Char.isUpper, decide_eq_true_eq, UInt32.le_iff_toNat_le] at h
    omega
  · simp only [Char.isLower, Bool.and_eq_true, decide_eq_true_eq, UInt32.le_iff_toNat_le] at h
    omega
  · simp only [Char.isDigit, Bool.and_eq_true, decide_eq_true_eq, UInt32.le_iff_toNat_le] at h
    omega
  all_goals decide

theorem takes_moreDigits (cs : List Char) : Takes cs (moreDigits cs).2 := by
  fun_induction moreDigits cs with
  | case1 => exact .refl []
  | case2 c rest hc ih => exact .cons (isLiteralChar_of_isDigit hc) ih
  | case3 c hc => exact .refl [c]
  | case4 c hc d rest h ih =>
    obtain ⟨rfl, hd⟩ := h
    exact .cons rfl (.cons (isLiteralChar_of_isDigit hd) ih)
  | case5 c hc d rest h => exact .refl _

theorem takes_digitPart (cs : List Char) : Takes cs (digitPart cs).2 := by
  fun_cases digitPart cs with
  | case1 => exact .refl []
  | case2 c rest hc => exact .cons (isLiteralChar_of_isDigit hc) (takes_moreDigits rest)
  | case3 c rest hc => exact .refl _

theorem takes_pointPart (cs : List Char) : Takes cs (pointPart cs).2 := by
  fun_cases pointPart cs with
  | case1 => exact .refl []
  | case2 rest => exact .cons rfl (takes_digitPart rest)
  | case3 c rest hc => exact .refl _

theorem takes_sign (cs : List Char) : Takes cs (Numeral.sign cs).2 := by
  fun_cases Numeral.sign cs with
  | case1 rest => exact .cons rfl (.refl rest)
  | case2 rest => exact .cons rfl (.refl rest)
  | case3 => exact .refl _

theorem takes_powerPart (cs : List Char) : Takes cs (powerPart cs).2 := by
  unfold powerPart
  split
  · exact .refl []
  · next c rest =>
    split
    · next hc =>
      have hletter : isLiteralChar c = true := by rcases hc with rfl | rfl <;> rfl
      have hdigits := (takes_sign rest).trans (takes_digitPart (Numeral.sign rest).2)
      simp only
      split
      · exact .refl _
      · next heq =>
        rw [heq] at hdigits
        exact .cons hletter hdigits
    · exact .refl _

/-- A literal takes characters of literals, and a word does not go on behind it. -/
theorem takes_of_literal? {cs rest : List Char} {q : Rat} (h : literal? cs = some (q, rest)) :
    Takes cs rest ∧ goesOn rest = false := by
  unfold literal? at h
  simp only [Option.ite_none_left_eq_some, Option.some.injEq, Prod.mk.injEq, Bool.or_eq_true, not_or] at h
  obtain ⟨⟨-, hend⟩, -, rfl⟩ := h
  exact ⟨((takes_digitPart cs).trans (takes_pointPart _)).trans (takes_powerPart _), Bool.eq_false_iff.2 hend⟩

/-- A word that could go on is taken whole. -/
theorem isLiteralChar_of_takes {cs tail rest : List Char} (hcs : ∀ c ∈ cs, goesOn [c] = true)
    (h : Takes (cs ++ tail) rest) (hrest : goesOn rest = false) : ∀ c ∈ cs, isLiteralChar c = true := by
  obtain ⟨taken, heq, htaken⟩ := h
  intro c hc
  rcases List.append_eq_append_iff.1 heq with ⟨more, rfl, -⟩ | ⟨left, rfl, rfl⟩
  · exact htaken c (List.mem_append_left _ hc)
  · rcases left with _ | ⟨d, left⟩
    · exact htaken c (by simpa using hc)
    · have hd : goesOn [d] = true := hcs d (by simp)
      exact absurd (hd.symm.trans hrest) (by decide)

/-! ### Numerals -/

theorem digitValue?_of_isLetter {c : Char} (hletter : Text.isLetter c = true) : digitValue? c = none := by
  have hlt : c.toNat < 128 :=
    lt_of_isLiteralChar (by simp [isLiteralChar, Text.isLetterOrDigit_of_isLetter hletter])
  rw [digitValue?_of_lt hlt, if_neg]
  intro hdigit
  rw [Text.isLetter_eq_false hdigit] at hletter
  cases hletter

/-- The characters of digits: those with the value of a digit, and underscores. -/
theorem exists_append_moreDigits (cs : List Char) : ∃ taken, cs = taken ++ (Numeral.moreDigits cs).2 ∧
    ∀ c ∈ taken, (digitValue? c).isSome = true ∨ c = '_' := by
  fun_induction Numeral.moreDigits cs with
  | case1 => exact ⟨[], rfl, by simp⟩
  | case2 c d hd => exact ⟨[c], rfl, by simp [hd]⟩
  | case3 c hd => exact ⟨[], rfl, by simp⟩
  | case4 c c' rest d hd ds rest' hmore ih =>
    obtain ⟨taken, heq, htaken⟩ := ih
    rw [hmore] at heq
    exact ⟨c :: taken, congrArg (c :: ·) heq, List.forall_mem_cons.2 ⟨by simp [hd], htaken⟩⟩
  | case5 c c' rest hd d hd' hunder ds rest' hmore ih =>
    obtain ⟨taken, heq, htaken⟩ := ih
    rw [hmore] at heq
    refine ⟨c :: c' :: taken, congrArg (c :: c' :: ·) heq, ?_⟩
    exact List.forall_mem_cons.2 ⟨.inr (beq_iff_eq.1 hunder), List.forall_mem_cons.2 ⟨by simp [hd'], htaken⟩⟩
  | case6 => exact ⟨[], rfl, by simp⟩

theorem exists_append_digits (cs : List Char) : ∃ taken, cs = taken ++ (Numeral.digits cs).2 ∧
    ∀ c ∈ taken, (digitValue? c).isSome = true ∨ c = '_' := by
  rcases cs with _ | ⟨c, cs⟩
  · exact ⟨[], rfl, by simp⟩
  · rw [Numeral.digits]
    rcases hd : digitValue? c with _ | d
    · exact ⟨[], rfl, by simp⟩
    · obtain ⟨taken, heq, htaken⟩ := exists_append_moreDigits cs
      exact ⟨c :: taken, congrArg (c :: ·) heq, List.forall_mem_cons.2 ⟨by simp [hd], htaken⟩⟩

theorem digits_subset (cs : List Char) : (Numeral.digits cs).2 ⊆ cs := by
  obtain ⟨taken, heq, -⟩ := exists_append_digits cs
  intro c hc
  rw [heq]
  exact List.mem_append_right _ hc

theorem fraction_subset (cs : List Char) : (Numeral.fraction cs).2 ⊆ cs := by
  fun_cases Numeral.fraction cs with
  | case1 rest => exact List.subset_cons_of_subset _ (digits_subset rest)
  | case2 => exact List.Subset.refl _

/-- In ASCII only the digit zero has the value zero. -/
theorem head?_of_digits {cs : List Char} (hcs : ∀ c ∈ cs, c.toNat < 128)
    (h : (Numeral.digits cs).1.head? = some 0) : cs.head? = some '0' := by
  rcases cs with _ | ⟨c, cs⟩
  · cases h
  · rw [Numeral.digits] at h
    rcases hd : digitValue? c with _ | d
    · rw [hd] at h
      cases h
    · rw [hd] at h
      obtain rfl : d = 0 := Option.some.inj h
      obtain ⟨hc, hd⟩ := of_digitValue?_eq_some (hcs c List.mem_cons_self) hd
      have h0 := (Char.isDigit_iff_toNat.1 hc).1
      rw [show '0'.toNat = 48 from rfl] at h0
      have hzero : c = '0' := Char.toNat_inj.1 (by rw [show '0'.toNat = 48 from rfl]; omega)
      rw [hzero, List.head?_cons]

/-- A power of ten starts with its letter. -/
theorem head?_of_exponent? {cs : List Char} {k : Int} (hk : Numeral.exponent? cs = some k) :
    cs = [] ∧ k = 0 ∨ cs.head? = some 'e' ∨ cs.head? = some 'E' := by
  unfold Numeral.exponent? at hk
  split at hk
  · exact .inl ⟨rfl, (Option.some.inj hk).symm⟩
  · obtain ⟨hc, -⟩ := Option.ite_none_right_eq_some.1 hk
    rcases hc with rfl | rfl
    · exact .inr (.inl rfl)
    · exact .inr (.inr rfl)

end Snippet

namespace Operand

open Snippet

variable {x : Operand}

/-- Whether a number is written as literals are: in ASCII, and not as an integer other than zero that
begins with a zero. -/
def IsLiteral (x : Operand) : Prop :=
  (∀ c ∈ x.text.toList, c.toNat < 128) ∧
    (x.text.toList.head? = some '0' → (∀ c ∈ x.text.toList, c ∉ ['.', 'e', 'E']) →
      x.meaning? = some (.number 0))

-- the quantifiers run over the text, not over all characters
instance : Decidable x.IsLiteral :=
  letI : Decidable (∀ c ∈ x.text.toList, c.toNat < 128) := List.decidableBAll _ _
  letI : Decidable (∀ c ∈ x.text.toList, c ∉ ['.', 'e', 'E']) := List.decidableBAll _ _
  inferInstanceAs (Decidable (_ ∧ _))

/-- The digits of a plain numeral and its power of ten, and the number they make. -/
theorem exists_exponent_of_isNumeral (hplain : x.IsPlain) (hnumeral : x.isNumeral = true) :
    ∃ k, Numeral.exponent? (Numeral.fraction (Numeral.digits x.text.toList).2).2 = some k ∧
      (Numeral.digits x.text.toList).1 ++ (Numeral.fraction (Numeral.digits x.text.toList).2).1 ≠ [] ∧
      x.meaning? = some (.number (Numeral.ofDigits ((Numeral.digits x.text.toList).1 ++
        (Numeral.fraction (Numeral.digits x.text.toList).2).1) *
          10 ^ (k - (Numeral.fraction (Numeral.digits x.text.toList).2).1.length))) := by
  rw [isNumeral, Text.isNumeral, Bool.and_eq_true, Bool.not_eq_true'] at hnumeral
  obtain ⟨hname, hread⟩ := hnumeral
  have hpadding : ∀ c ∈ x.text.toList, Text.isPadding c = false := fun c hc => by
    simp [Text.isPadding, (hplain c hc).1]
  have hunsigned := Numeral.read?_eq_unsigned? hpadding fun c hc => (hplain c hc).2
  rw [Numeral.unsigned?, Numeral.word?_eq_none hname] at hunsigned
  simp only at hunsigned
  rw [hunsigned] at hread
  split at hread
  · cases hread
  next hne =>
  rcases hk : Numeral.exponent? (Numeral.fraction (Numeral.digits x.text.toList).2).2 with _ | k
  · rw [hk] at hread
    cases hread
  rw [if_neg hne, hk, Option.map_some] at hunsigned
  refine ⟨k, rfl, ?_, ?_⟩
  · simpa [← List.append_eq_nil_iff] using hne
  · rw [meaning?, hname, if_neg Bool.false_ne_true, hunsigned]
    simp only [Numeral.value?_finite, Option.map_some]

section Plain

variable (hplain : x.IsPlain) (hnumeral : x.isNumeral = true)

include hplain hnumeral

/-- A plain numeral in ASCII is a literal, unless it is an integer other than zero that begins with a
zero. -/
theorem literal?_of_ascii (hascii : ∀ c ∈ x.text.toList, c.toNat < 128) {q : ℚ}
    (hq : x.meaning? = some (.number q)) {tail : List Char} (htail : Ends tail) :
    literal? (x.text.toList ++ tail) =
      if (Numeral.digits x.text.toList).1.head? = some 0 ∧
        Numeral.ofDigits (Numeral.digits x.text.toList).1 ≠ 0 ∧ (Numeral.digits x.text.toList).2 = []
      then none else some (q, tail) := by
  obtain ⟨k, hk, hne, hread⟩ := exists_exponent_of_isNumeral hplain hnumeral
  obtain rfl := LeafValue.number.inj (Option.some.inj (hq.symm.trans hread))
  have hascii₁ : ∀ c ∈ (Numeral.digits x.text.toList).2, c.toNat < 128 :=
    fun c hc => hascii c (digits_subset _ hc)
  have hascii₂ : ∀ c ∈ (Numeral.fraction (Numeral.digits x.text.toList).2).2, c.toNat < 128 :=
    fun c hc => hascii₁ c (fraction_subset _ hc)
  rw [literal?, digitPart_append htail hascii]
  simp only [pointPart_append htail hascii₁, powerPart_append htail hascii₂ hk, goesOn_of_ends htail]
  clear hq hread hascii₁ hascii₂
  generalize (Numeral.digits x.text.toList).1 = whole at *
  generalize (Numeral.digits x.text.toList).2 = rest at *
  have hpower : (if (Numeral.fraction rest).2 = [] then none else some k).getD 0 = k := by
    split
    · next hnil =>
      rw [hnil] at hk
      exact Option.some.inj hk
    · rfl
  by_cases hpoint : rest.head? = some '.'
  · have hrest : rest ≠ [] := by
      rintro rfl
      cases hpoint
    simp [hpoint, hpower, hrest, hne]
  · rw [fraction_of_head?_ne hpoint] at *
    by_cases hrest : rest = []
    · subst hrest
      simp_all
    · simp_all

/-- The digits of an integer that begins with a zero. -/
theorem digits_of_zero_first (hzero : x.text.toList.head? = some '0')
    (hinteger : ∀ c ∈ x.text.toList, c ∉ ['.', 'e', 'E']) :
    (Numeral.digits x.text.toList).1.head? = some 0 ∧ (Numeral.digits x.text.toList).2 = [] := by
  obtain ⟨k, hk, -, -⟩ := exists_exponent_of_isNumeral hplain hnumeral
  constructor
  · obtain ⟨cs, hcs⟩ := List.head?_eq_some_iff.1 hzero
    have hdigit : digitValue? '0' = some 0 := by decide
    rw [hcs, Numeral.digits, hdigit]
    rfl
  · -- what is left would begin with a point or with the letter of a power of ten
    have hhead : ∀ c ∈ ['.', 'e', 'E'], (Numeral.digits x.text.toList).2.head? ≠ some c := by
      intro c hc heq
      exact hinteger c (digits_subset _ (List.mem_of_head? heq)) hc
    rw [fraction_of_head?_ne (hhead '.' (by simp))] at hk
    rcases head?_of_exponent? hk with ⟨hnil, -⟩ | he | he
    · exact hnil
    · exact absurd he (hhead 'e' (by simp))
    · exact absurd he (hhead 'E' (by simp))

/-- The number of an integer. -/
theorem meaning?_of_digits_eq_nil (hnil : (Numeral.digits x.text.toList).2 = []) :
    x.meaning? = some (.number (Numeral.ofDigits (Numeral.digits x.text.toList).1)) := by
  obtain ⟨k, hk, -, hread⟩ := exists_exponent_of_isNumeral hplain hnumeral
  rw [hnil] at hk hread
  obtain rfl : 0 = k := Option.some.inj hk
  simpa [Numeral.fraction] using hread

/-- A numeral begins with a digit or a point. -/
theorem exists_head_of_isNumeral : ∃ c cs, x.text.toList = c :: cs ∧
    ((digitValue? c).isSome = true ∨ c = '.') := by
  obtain ⟨k, -, hne, -⟩ := exists_exponent_of_isNumeral hplain hnumeral
  rcases htext : x.text.toList with _ | ⟨c, cs⟩
  · rw [htext] at hne
    exact absurd rfl hne
  · refine ⟨c, cs, rfl, ?_⟩
    by_contra hc
    rw [not_or, Option.isSome_iff_ne_none, not_not] at hc
    have hdigits : Numeral.digits (c :: cs) = ([], c :: cs) := by rw [Numeral.digits, hc.1]
    have hpoint : (c :: cs).head? ≠ some '.' := fun h => hc.2 (Option.some.inj h)
    rw [htext, hdigits, fraction_of_head?_ne hpoint] at hne
    exact hne rfl

/-- **A numeral that is written as literals are is a literal for its number.** -/
theorem literal?_of_isLiteral (hliteral : x.IsLiteral) {q : ℚ} (hq : x.meaning? = some (.number q))
    {tail : List Char} (htail : Ends tail) : literal? (x.text.toList ++ tail) = some (q, tail) := by
  rw [literal?_of_ascii hplain hnumeral hliteral.1 hq htail, if_neg]
  rintro ⟨hzero, hne, hnil⟩
  have hread := meaning?_of_digits_eq_nil hplain hnumeral hnil
  obtain ⟨taken, htaken, hchars⟩ := exists_append_digits x.text.toList
  rw [hnil, List.append_nil] at htaken
  have hinteger : ∀ c ∈ x.text.toList, c ∉ ['.', 'e', 'E'] := by
    intro c hc hmem
    have hdigit := hchars c (htaken ▸ hc)
    simp only [List.mem_cons, List.not_mem_nil, or_false] at hmem
    rcases hmem with rfl | rfl | rfl <;> revert hdigit <;> decide
  have hhead := head?_of_digits hliteral.1 hzero
  have h0 := hliteral.2 hhead hinteger
  rw [hread] at h0
  exact hne (by exact_mod_cast LeafValue.number.inj (Option.some.inj h0))

/-- No character of a plain numeral can stand behind a word. -/
theorem goesOn_of_isNumeral : ∀ c ∈ x.text.toList, goesOn [c] = true := by
  intro c hc
  rw [isNumeral, Text.isNumeral, Bool.and_eq_true] at hnumeral
  obtain ⟨numeral, hread⟩ := Option.isSome_iff_exists.1 hnumeral.2
  have hchar := Numeral.isNumeralChar_of_read? hread c hc
  obtain ⟨hblank, hplus, hminus⟩ := hplain c hc
  simp only [Text.isNumeralChar, Text.isPadding, hblank, Bool.false_and, Bool.false_or, Bool.or_eq_true,
    beq_iff_eq, hplus, hminus, or_false] at hchar
  simp only [goesOn, Bool.or_eq_true, beq_iff_eq, decide_eq_true_eq]
  rcases hchar with (hdigit | hletter) | hpoint
  · by_cases hlt : c.toNat < 128
    · rw [digitValue?_of_lt hlt] at hdigit
      have hc : c.isDigit = true := by
        by_contra hc
        rw [if_neg hc] at hdigit
        cases hdigit
      simp [isLetterOrDigit, Char.isAlphanum, hc]
    · omega
  · simp [Text.isLetterOrDigit_of_isLetter hletter]
  · simp [hpoint]

/-- **Any other numeral is no literal.** -/
theorem literal?_of_not_isLiteral (hliteral : ¬ x.IsLiteral) {tail : List Char} (htail : Ends tail) :
    literal? (x.text.toList ++ tail) = none := by
  rcases hsome : literal? (x.text.toList ++ tail) with _ | ⟨q', rest⟩
  · rfl
  exfalso
  obtain ⟨htakes, hrest⟩ := takes_of_literal? hsome
  have hchars := isLiteralChar_of_takes (goesOn_of_isNumeral hplain hnumeral) htakes hrest
  have hascii : ∀ c ∈ x.text.toList, c.toNat < 128 := fun c hc => lt_of_isLiteralChar (hchars c hc)
  obtain ⟨k, -, -, hread⟩ := exists_exponent_of_isNumeral hplain hnumeral
  rw [literal?_of_ascii hplain hnumeral hascii hread htail] at hsome
  refine hliteral ⟨hascii, fun hzero hinteger => ?_⟩
  obtain ⟨hhead, hnil⟩ := digits_of_zero_first hplain hnumeral hzero hinteger
  have hdigits : Numeral.ofDigits (Numeral.digits x.text.toList).1 = 0 := by
    by_contra hne
    rw [if_pos ⟨hhead, hne, hnil⟩] at hsome
    cases hsome
  rw [meaning?_of_digits_eq_nil hplain hnumeral hnil, hdigits, Nat.cast_zero]

end Plain

end Operand

end LinearRelations
