import LinearRelations.Numeric.Compare
import LinearRelations.Proofs.Numeric.Rounding
import LinearRelations.Proofs.Syntax.Relation

/-!
# The tolerance of equality

Two numbers count as equal if their difference is within a tolerance that has an absolute part and a
part that grows with the right side. So equality is looser for large numbers, and the sides do not
play the same part in it. The comparison is carried out on doubles; rounding decides it only where the
difference is as near to the tolerance as one part in `2 ^ 50`.

* `tolerance`: the exact tolerance;
* `Decides`: a comparison of a difference with a tolerance, up to rounding;
* `decides_isClose`: the comparison of doubles;
* `Expr.finiteValue?`: the finite value of an expression;
* `Relation.holds_equation`: when an equation holds, and when it holds with its sides swapped;
* `Relation.holds_wide`: numbers that differ by one count as equal, others only in one order.
-/

namespace LinearRelations

open Double (toRat? IsNear)

/-- The difference within which a number counts as equal to one on the right side. -/
def tolerance (q : ℚ) : ℚ := 1 / 10 ^ 6 + |q| / 10 ^ 5

/-- The part of a tolerance that rounding can make up. -/
def slack : ℚ := 1 / 2 ^ 50

/-- Whether a truth value tells if a difference is within a tolerance, up to rounding. -/
structure Decides (c : Bool) (difference tolerance : ℚ) : Prop where
  within : difference ≤ (1 - slack) * tolerance → c = true
  of_true : c = true → difference ≤ (1 + slack) * tolerance

theorem toRat?_absolute : toRat? 1e-6 = some (4722366482869645 / 2 ^ 72) := by decide +kernel

theorem toRat?_relative : toRat? 1e-5 = some (5902958103587057 / 2 ^ 69) := by decide +kernel

variable {x y : Float} {p q : ℚ}

theorem tolerance_pos (q : ℚ) : 1 / 10 ^ 6 ≤ tolerance q := le_add_of_nonneg_right (by positivity)

/-- No tolerance is too large for a double. -/
theorem tolerance_lt (hq : toRat? y = some q) : tolerance q < 2 ^ 1023 := by
  have hlt : |q| < 2 * 2 ^ 1023 := (Double.abs_lt_of_toRat? hq).trans_eq (pow_succ' 2 1023)
  have hone : (1 : ℚ) ≤ 2 ^ 1023 := one_le_pow₀ one_le_two
  rw [tolerance]
  generalize (2 : ℚ) ^ 1023 = large at *
  linarith

/-- The smallest double is small beside every tolerance. -/
theorem zpow_smallest_le : (2 : ℚ) ^ (-1074 : ℤ) ≤ 1 / 2 ^ 100 := by
  rw [one_div, ← zpow_natCast, ← zpow_neg]
  exact zpow_le_zpow_right₀ one_le_two (by decide)

/-- A number of moderate size is near to a finite double. -/
theorem exists_of_isNear {v : ℚ} (h : IsNear x v) (hv : |v| < 2 ^ 1023) :
    ∃ w, toRat? x = some w ∧ |w - v| ≤ |v| / 2 ^ 52 + 1 / 2 ^ 100 := by
  obtain ⟨w, hw, herror⟩ | ⟨s, -, hlarge⟩ := h
  · exact ⟨w, hw, herror.trans (add_le_add_right zpow_smallest_le _)⟩
  · exact absurd hv (not_lt.2 hlarge)

/-- **The tolerance of doubles** is the exact one but for two roundings and those of its two parts. -/
theorem exists_tolerance (hq : toRat? y = some q) :
    ∃ b, toRat? (1e-6 + 1e-5 * y.abs) = some b ∧ |b - tolerance q| ≤ tolerance q * 5 / 2 ^ 53 := by
  have hsize : |q| < 2 * 2 ^ 1023 := (Double.abs_lt_of_toRat? hq).trans_eq (pow_succ' 2 1023)
  have hone : (1 : ℚ) ≤ 2 ^ 1023 := one_le_pow₀ one_le_two
  have hnonneg : 0 ≤ |q| := abs_nonneg q
  -- the relative part
  have hrelative : (0 : ℚ) ≤ 5902958103587057 / 2 ^ 69 * |q| := by positivity
  have hmoderate : |5902958103587057 / 2 ^ 69 * (|q| : ℚ)| < 2 ^ 1023 := by
    rw [abs_of_nonneg hrelative]
    generalize (2 : ℚ) ^ 1023 = large at *
    linarith
  obtain ⟨t, ht, hterror⟩ :=
    exists_of_isNear (Double.isNear_mul toRat?_relative (Double.toRat?_abs hq)) hmoderate
  rw [abs_of_nonneg hrelative, abs_le] at hterror
  -- the sum of both parts
  have hsum : (0 : ℚ) ≤ 4722366482869645 / 2 ^ 72 + t := by linarith
  have hmoderate' : |4722366482869645 / 2 ^ 72 + t| < 2 ^ 1023 := by
    rw [abs_of_nonneg hsum]
    generalize (2 : ℚ) ^ 1023 = large at *
    linarith
  obtain ⟨b, hb, hberror⟩ := exists_of_isNear (Double.isNear_add toRat?_absolute ht) hmoderate'
  rw [abs_of_nonneg hsum, abs_le] at hberror
  refine ⟨b, hb, ?_⟩
  rw [tolerance, abs_le]
  constructor <;> linarith

/-- The exact size of a difference of doubles, unless it is too large for a double. -/
theorem abs_sub_cases (hp : toRat? x = some p) (hq : toRat? y = some q) :
    (∃ d, toRat? (x - y).abs = some d ∧ abs (d - |p - q|) ≤ |p - q| / 2 ^ 52 + 1 / 2 ^ 100) ∨
      (x - y).abs.toModel.unpack = .infinity .positive ∧ 2 ^ 1023 ≤ |p - q| := by
  obtain ⟨w, hw, herror⟩ | ⟨s, hs, hlarge⟩ := Double.isNear_sub hp hq
  · have habs := (abs_abs_sub_abs_le_abs_sub w (p - q)).trans herror
    exact .inl ⟨|w|, Double.toRat?_abs hw, habs.trans (add_le_add_right zpow_smallest_le _)⟩
  · have habs : (x - y).abs.toModel.unpack = (Float.Model.pack (x - y).toModel.unpack.abs).unpack := rfl
    rw [hs] at habs
    exact .inr ⟨habs.trans (Double.unpack_pack_infinity _), hlarge⟩

/-- Numbers within the tolerance are close. -/
theorem isClose_of_abs_sub_le (hp : toRat? x = some p) (hq : toRat? y = some q)
    (h : |p - q| ≤ (1 - slack) * tolerance q) : isClose x y = true := by
  have hmin := tolerance_pos q
  have hlt := tolerance_lt hq
  obtain ⟨b, hb, hberror⟩ := exists_tolerance hq
  rw [abs_le] at hberror
  rw [slack] at h
  obtain ⟨d, hd, hderror⟩ | ⟨-, hlarge⟩ := abs_sub_cases hp hq
  · rw [abs_le] at hderror
    have hle : (x - y).abs ≤ 1e-6 + 1e-5 * y.abs := (Double.le_iff hd hb).2 (by linarith)
    simp [isClose, LinearRelations.within, hle, Double.isFinite_of_toRat? hq]
  · generalize (2 : ℚ) ^ 1023 = large at *
    linarith

/-- Close numbers are within the tolerance. -/
theorem abs_sub_le_of_isClose (hp : toRat? x = some p) (hq : toRat? y = some q) (h : isClose x y = true) :
    |p - q| ≤ (1 + slack) * tolerance q := by
  have hmin := tolerance_pos q
  obtain ⟨b, hb, hberror⟩ := exists_tolerance hq
  rw [abs_le] at hberror
  rw [slack]
  rw [isClose, Bool.or_eq_true, Bool.and_eq_true, LinearRelations.within, decide_eq_true_eq,
    Double.beq_iff hp hq] at h
  obtain ⟨hle, -⟩ | rfl := h
  · obtain ⟨d, hd, hderror⟩ | ⟨hinfinity, -⟩ := abs_sub_cases hp hq
    · rw [abs_le] at hderror
      have hdb := (Double.le_iff hd hb).1 hle
      linarith
    · exact absurd hle (Double.not_infinity_le hinfinity hb)
  · rw [sub_self, abs_zero]
    linarith

/-- **Doubles are close if they differ by the tolerance at most.** -/
theorem decides_isClose (hp : toRat? x = some p) (hq : toRat? y = some q) :
    Decides (isClose x y) |p - q| (tolerance q) :=
  ⟨isClose_of_abs_sub_le hp hq, abs_sub_le_of_isClose hp hq⟩

/-! ### Equations -/

/-- The exact value of one finite double. -/
def Quantity.doubleValue? (a : Quantity) : Option ℚ :=
  match a.doubles with
  | .ok (.one _ x) => toRat? x
  | _ => none

/-- The exact value of an expression that comes to one finite double. -/
def Expr.finiteValue? (values : Values) (e : Expr) : Option ℚ :=
  match e.evaluate values with
  | .ok a => a.doubleValue?
  | .error _ => none

theorem Quantity.exists_of_doubleValue? {a : Quantity} (h : a.doubleValue? = some p) :
    ∃ isPlain x, a.doubles = .ok (.one isPlain x) ∧ toRat? x = some p := by
  rw [doubleValue?] at h
  split at h
  · next isPlain x ha => exact ⟨isPlain, x, ha, h⟩
  · cases h

theorem Expr.exists_of_finiteValue? {values : Values} {e : Expr} (h : e.finiteValue? values = some p) :
    ∃ a, e.evaluate values = .ok a ∧ a.doubleValue? = some p := by
  rw [finiteValue?] at h
  split at h
  · next a ha => exact ⟨a, ha, h⟩
  · cases h

namespace Relation

theorem exists_holds {r : Relation} {values : Values} (hr : r.isEquation = true)
    (hp : r.lhs.finiteValue? values = some p) (hq : r.rhs.finiteValue? values = some q) :
    ∃ c, r.holds values = .ok (.single c) ∧ Decides c |p - q| (tolerance q) := by
  obtain ⟨a, ha, hp⟩ := Expr.exists_of_finiteValue? hp
  obtain ⟨b, hb, hq⟩ := Expr.exists_of_finiteValue? hq
  obtain ⟨_, x, hx, hp⟩ := Quantity.exists_of_doubleValue? hp
  obtain ⟨_, y, hy, hq⟩ := Quantity.exists_of_doubleValue? hq
  refine ⟨isClose x y, ?_, decides_isClose hp hq⟩
  have hcomparison : r.comparison = .eq := beq_iff_eq.1 hr
  rw [holds, ha, hb, hcomparison]
  simp only [bind, Except.bind, Comparison.holds, hx, hy]
  rfl

/-- **An equation holds if its sides differ by the tolerance at most**, up to rounding. The tolerance is
that of the right side, so the swapped equation holds by the tolerance of the other one. -/
theorem holds_equation {r : Relation} {values : Values} (hr : r.isEquation = true)
    (hp : r.lhs.finiteValue? values = some p) (hq : r.rhs.finiteValue? values = some q) :
    ∃ c c', r.holds values = .ok (.single c) ∧ r.swapped.holds values = .ok (.single c') ∧
      Decides c |p - q| (tolerance q) ∧ Decides c' |p - q| (tolerance p) := by
  have hswapped : r.swapped.isEquation = true := by
    rw [isEquation, beq_iff_eq] at hr ⊢
    rw [swapped, hr]
    rfl
  obtain ⟨c, hc, hdecides⟩ := exists_holds hr hp hq
  obtain ⟨c', hc', hdecides'⟩ := exists_holds hswapped hq hp
  rw [abs_sub_comm] at hdecides'
  exact ⟨c, c', hc, hc', hdecides, hdecides'⟩

/-- `lo = hi`. -/
def wide : Relation :=
  ⟨.leaf ⟨"lo", by decide⟩, .eq, .leaf ⟨"hi", by decide⟩⟩

/-- The difference is one, the tolerance more than ten. -/
theorem holds_equation_wide :
    wide.isEquation = true ∧
      wide.lhs.finiteValue? [("lo", .whole 1000000), ("hi", .whole 1000001)] = some 1000000 ∧
      wide.rhs.finiteValue? [("lo", .whole 1000000), ("hi", .whole 1000001)] = some 1000001 ∧
      wide.holds [("lo", .whole 1000000), ("hi", .whole 1000001)] = .ok (.single true) := by
  have hp : wide.lhs.finiteValue? [("lo", .whole 1000000), ("hi", .whole 1000001)] = some 1000000 := by
    decide +kernel
  have hq : wide.rhs.finiteValue? [("lo", .whole 1000000), ("hi", .whole 1000001)] = some 1000001 := by
    decide +kernel
  obtain ⟨c, -, hc, -, hdecides, -⟩ := holds_equation rfl hp hq
  have hwithin : |(1000000 : ℚ) - 1000001| ≤ (1 - slack) * tolerance 1000001 := by decide +kernel
  exact ⟨rfl, hp, hq, hdecides.within hwithin ▸ hc⟩

theorem parse_wide : parse "lo = hi" = .ok wide :=
  have hrender : wide.render = "lo = hi" := by decide +kernel
  hrender ▸ parse_render (by decide) (by decide)

/-- **A millionth is not the whole tolerance**: `1000000 = 1000001` holds; and an equation can hold in
one order only, as with `100000` and `100001.000005`. -/
theorem holds_wide :
    (¬ ∀ (text : String) (r : Relation) (values : Values) (p q : ℚ), parse text = .ok r →
      r.isEquation = true → r.lhs.finiteValue? values = some p → r.rhs.finiteValue? values = some q →
      (r.holds values = .ok (.single true) ↔ |p - q| ≤ 1 / 10 ^ 6)) ∧
    ¬ ∀ (text : String) (r : Relation) (values : Values) (p q : ℚ), parse text = .ok r →
      r.isEquation = true → r.lhs.finiteValue? values = some p → r.rhs.finiteValue? values = some q →
      (r.holds values = .ok (.single true) ↔ r.swapped.holds values = .ok (.single true)) := by
  constructor
  · intro h
    have hiff := h _ _ [("lo", .whole 1000000), ("hi", .whole 1000001)] 1000000 1000001 parse_wide rfl
      (by decide +kernel) (by decide +kernel)
    have hle : |(1000000 : ℚ) - 1000001| ≤ 1 / 10 ^ 6 := hiff.1 (by decide +kernel)
    norm_num at hle
  · intro h
    have hswapped := h _ _ [("lo", .plain 100000), ("hi", .plain 100001.000005)] 100000
      (6872016393420333 / 2 ^ 36) parse_wide rfl (by decide +kernel) (by decide +kernel)
    have hone : wide.holds [("lo", .plain 100000), ("hi", .plain 100001.000005)] = .ok (.single true) := by
      decide +kernel
    have hother : wide.swapped.holds [("lo", .plain 100000), ("hi", .plain 100001.000005)] =
        .ok (.single false) := by decide +kernel
    rw [hone, hother] at hswapped
    cases hswapped.1 rfl

end Relation

end LinearRelations
