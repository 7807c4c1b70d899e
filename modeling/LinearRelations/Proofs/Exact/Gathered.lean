import LinearRelations.Proofs.Leaves

/-!
# Gathered forms

Gathering like terms and like factors keeps the value of an expression wherever it has one.

* `AtomValues`: values for the atoms, and the valuation of constants and names they give;
* `Combination.value`, `Combination.IsRegular`: the value of a form, and that nothing in it is
  unbounded or the inverse of zero;
* `Combination.Represents`: a regular form has a given value;
* `Expr.combination_represents`: the form of an expression represents the value of the expression.
-/

namespace LinearRelations

/-! ### Forms that compare as equal are equal -/

theorem Scale.eq_of_compare : ∀ {c d : Scale}, c.compare d = .eq → c = d
  | .finite p, .finite q, h => by
    rw [Scale.compare] at h
    split at h
    · cases h
    · split at h
      · cases h
      · next h1 h2 => rw [le_antisymm (not_lt.1 h2) (not_lt.1 h1)]
  | .finite _, .unbounded, h => by cases h
  | .unbounded, .finite _, h => by cases h
  | .unbounded, .unbounded, _ => rfl

theorem Atom.eq_of_compare {a b : Atom} (h : a.compare b = .eq) : a = b := by
  rw [Atom.compare, Ordering.then_eq_eq, compare_eq_iff_eq, compare_eq_iff_eq] at h
  cases a <;> cases b <;> simp_all [Atom.rank, Atom.name]

mutual

theorem Combination.eq_of_compare : ∀ {c d : Combination}, c.compare d = .eq → c = d
  | .mk c ts, .mk d us, h => by
    rw [Combination.compare, Ordering.then_eq_eq] at h
    rw [Scale.eq_of_compare h.1, Combination.eq_of_compareTerms h.2]

theorem Combination.eq_of_compareTerms :
    ∀ {ts us : List Product}, Combination.compareTerms ts us = .eq → ts = us
  | [], [], _ => rfl
  | [], _ :: _, h => by simp [Combination.compareTerms] at h
  | _ :: _, [], h => by simp [Combination.compareTerms] at h
  | t :: ts, u :: us, h => by
    rw [Combination.compareTerms, Ordering.then_eq_eq] at h
    rw [Product.eq_of_compare h.1, Combination.eq_of_compareTerms h.2]

theorem Product.eq_of_compare : ∀ {s t : Product}, s.compare t = .eq → s = t
  | .mk c ps, .mk d qs, h => by
    rw [Product.compare, Ordering.then_eq_eq] at h
    rw [Scale.eq_of_compare h.2, Product.eq_of_comparePowers h.1]

theorem Product.eq_of_comparePowers :
    ∀ {ps qs : List Power}, Product.comparePowers ps qs = .eq → ps = qs
  | [], [], _ => rfl
  | [], _ :: _, h => by simp [Product.comparePowers] at h
  | _ :: _, [], h => by simp [Product.comparePowers] at h
  | p :: ps, q :: qs, h => by
    rw [Product.comparePowers, Ordering.then_eq_eq] at h
    rw [Power.eq_of_compare h.1, Product.eq_of_comparePowers h.2]

theorem Power.eq_of_compare : ∀ {p q : Power}, p.compare q = .eq → p = q
  | .mk b k, .mk c l, h => by
    rw [Power.compare, Ordering.then_eq_eq, compare_eq_iff_eq] at h
    rw [Base.eq_of_compare h.1, h.2]

theorem Base.eq_of_compare : ∀ {b c : Base}, b.compare c = .eq → b = c
  | .atom a, .atom b, h => by
    rw [Base.compare] at h
    rw [Atom.eq_of_compare h]
  | .atom _, .sum _, h => by simp [Base.compare] at h
  | .sum _, .atom _, h => by simp [Base.compare] at h
  | .sum c, .sum d, h => by
    rw [Base.compare] at h
    rw [Combination.eq_of_compare h]

end

/-! ### Values of atoms -/

/-- Field elements for the atoms, none of the constants zero. -/
structure AtomValues (K : Type*) [Field K] where
  value : Atom → K
  rootTwo_sq : value .rootTwo ^ 2 = 2
  ne_zero : ∀ a, a.isUnknown = false → value a ≠ 0

variable {K : Type*} [Field K]

/-- The valuation in which each constant has the value of its rational factor and its atom. -/
def AtomValues.valuation (t : AtomValues K) : Valuation K where
  constant c := (c.parts.1 : K) * t.value c.parts.2.1 ^ c.parts.2.2
  unknown name := t.value (.unknown name)

theorem isUnknown_parts (c : Constant) : c.parts.2.1.isUnknown = false := by cases c <;> rfl

/-! ### Values of forms -/

def Scale.value : Scale → K
  | finite q => (q : K)
  | unbounded => 0

mutual

/-- The value of a combination, unbounded values counted as zero. -/
def Combination.value (t : AtomValues K) : Combination → K
  | .mk c ts => c.value + Combination.termsValue t ts

def Combination.termsValue (t : AtomValues K) : List Product → K
  | [] => 0
  | s :: ts => s.value t + Combination.termsValue t ts

def Product.value (t : AtomValues K) : Product → K
  | .mk c ps => c.value * Product.powersValue t ps

def Product.powersValue (t : AtomValues K) : List Power → K
  | [] => 1
  | p :: ps => p.value t * Product.powersValue t ps

def Power.value (t : AtomValues K) : Power → K
  | .mk b k => b.value t ^ k

def Base.value (t : AtomValues K) : Base → K
  | .atom a => t.value a
  | .sum c => c.value t

end

mutual

/-- Whether nothing in a combination is unbounded or a negative power of zero. -/
def Combination.IsRegular (t : AtomValues K) : Combination → Prop
  | .mk c ts => c.isUnbounded = false ∧ Combination.TermsRegular t ts

def Combination.TermsRegular (t : AtomValues K) : List Product → Prop
  | [] => True
  | s :: ts => s.IsRegular t ∧ Combination.TermsRegular t ts

def Product.IsRegular (t : AtomValues K) : Product → Prop
  | .mk c ps => c.isUnbounded = false ∧ Product.PowersRegular t ps

def Product.PowersRegular (t : AtomValues K) : List Power → Prop
  | [] => True
  | p :: ps => p.IsRegular t ∧ Product.PowersRegular t ps

def Power.IsRegular (t : AtomValues K) : Power → Prop
  | .mk b k => b.IsRegular t ∧ (k < 0 → b.value t ≠ 0)

def Base.IsRegular (t : AtomValues K) : Base → Prop
  | .atom _ => True
  | .sum c => c.IsRegular t

end

/-- A regular combination with a given value. -/
def Combination.Represents (t : AtomValues K) (c : Combination) (x : K) : Prop :=
  c.IsRegular t ∧ c.value t = x

/-- A regular multiple of powers with a given value. -/
def Product.Represents (t : AtomValues K) (s : Product) (x : K) : Prop :=
  s.IsRegular t ∧ s.value t = x

/-- Regular powers whose product has a given value. -/
def Power.Represent (t : AtomValues K) (ps : List Power) (x : K) : Prop :=
  Product.PowersRegular t ps ∧ Product.powersValue t ps = x

variable (t : AtomValues K)

theorem Scale.eq_finite_of_not_isUnbounded {c : Scale} (h : c.isUnbounded = false) :
    ∃ q, c = finite q := by
  cases c with
  | finite q => exact ⟨q, rfl⟩
  | unbounded => cases h

theorem Product.represents_mk_iff {q : Rat} {ps : List Power} {x : K} :
    (Product.mk (.finite q) ps).Represents t x ↔
      ∃ y, Power.Represent t ps y ∧ x = (q : K) * y := by
  simp only [Product.Represents, Product.IsRegular, Product.value, Scale.isUnbounded, Scale.value,
    Power.Represent, true_and]
  constructor
  · rintro ⟨hreg, rfl⟩
    exact ⟨_, ⟨hreg, rfl⟩, rfl⟩
  · rintro ⟨y, ⟨hreg, rfl⟩, rfl⟩
    exact ⟨hreg, rfl⟩

/-! ### Powers -/

/-- Exponents of equal bases add up, if zero is not raised to a negative one of them. -/
theorem zpow_add_of_ne_zero {x : K} {k l : Int} (hk : k < 0 → x ≠ 0) (hl : l < 0 → x ≠ 0) :
    x ^ (k + l) = x ^ k * x ^ l := by
  by_cases hx : x = 0
  · obtain ⟨m, rfl⟩ := Int.eq_ofNat_of_zero_le (not_lt.1 fun h => hk h hx)
    obtain ⟨n, rfl⟩ := Int.eq_ofNat_of_zero_le (not_lt.1 fun h => hl h hx)
    rw [← Nat.cast_add]
    simp only [zpow_natCast, pow_add]
  · exact zpow_add₀ hx k l

namespace Power

theorem represent_cons_iff {p : Power} {ps : List Power} {x : K} :
    Represent t (p :: ps) x ↔ p.IsRegular t ∧ ∃ y, Represent t ps y ∧ x = p.value t * y := by
  simp only [Represent, Product.PowersRegular, Product.powersValue]
  constructor
  · rintro ⟨⟨hp, hps⟩, rfl⟩
    exact ⟨hp, _, ⟨hps, rfl⟩, rfl⟩
  · rintro ⟨hp, y, ⟨hps, rfl⟩, rfl⟩
    exact ⟨⟨hp, hps⟩, rfl⟩

theorem represent_nil : Represent t [] 1 := ⟨trivial, rfl⟩

theorem not_hasUnboundedConstant {p : Power} (h : p.IsRegular t) :
    p.hasUnboundedConstant = false := by
  match p with
  | .mk (.sum (.mk .unbounded _)) _ => cases h.1.1
  | .mk (.sum (.mk (.finite _) _)) _ => rfl
  | .mk (.atom _) _ => rfl

/-- Merging rising lists of powers multiplies them. -/
theorem represent_merge? {ps qs : List Power} {x y : K} (hp : Represent t ps x)
    (hq : Represent t qs y) : ∃ rs, merge? ps qs = some rs ∧ Represent t rs (x * y) := by
  fun_induction merge? ps qs generalizing x y with
  | case1 qs => exact ⟨qs, rfl, by rwa [← hp.2, Product.powersValue, one_mul]⟩
  | case2 ps _ => exact ⟨ps, rfl, by rwa [← hq.2, Product.powersValue, mul_one]⟩
  | case3 p ps q qs _ ih =>
    obtain ⟨hreg, x', hps, rfl⟩ := (represent_cons_iff t).1 hp
    obtain ⟨rs, hrs, hr⟩ := ih hps hq
    exact ⟨p :: rs, by rw [hrs]; rfl, (represent_cons_iff t).2 ⟨hreg, _, hr, mul_assoc ..⟩⟩
  | case4 p ps q qs _ ih =>
    obtain ⟨hreg, y', hqs, rfl⟩ := (represent_cons_iff t).1 hq
    obtain ⟨rs, hrs, hr⟩ := ih hp hqs
    exact ⟨q :: rs, by rw [hrs]; rfl, (represent_cons_iff t).2 ⟨hreg, _, hr, mul_left_comm ..⟩⟩
  | case5 p ps q qs heq hzero hunb =>
    obtain ⟨hreg, -⟩ := (represent_cons_iff t).1 hp
    rw [not_hasUnboundedConstant t hreg] at hunb
    cases hunb
  | case6 p ps q qs heq hzero _ ih =>
    obtain ⟨b, k⟩ := p
    obtain ⟨b', l⟩ := q
    obtain rfl : b = b' := Base.eq_of_compare heq
    obtain ⟨⟨-, hk⟩, x', hps, rfl⟩ := (represent_cons_iff t).1 hp
    obtain ⟨⟨-, hl⟩, y', hqs, rfl⟩ := (represent_cons_iff t).1 hq
    obtain ⟨rs, hrs, hr⟩ := ih hps hqs
    have hone : b.value t ^ k * b.value t ^ l = 1 := by
      rw [← zpow_add_of_ne_zero hk hl, show k + l = 0 from hzero, zpow_zero]
    refine ⟨rs, hrs, ?_⟩
    rwa [Power.value, Power.value, mul_mul_mul_comm, hone, one_mul]
  | case7 p ps q qs heq hzero ih =>
    obtain ⟨b, k⟩ := p
    obtain ⟨b', l⟩ := q
    obtain rfl : b = b' := Base.eq_of_compare heq
    obtain ⟨⟨hb, hk⟩, x', hps, rfl⟩ := (represent_cons_iff t).1 hp
    obtain ⟨⟨-, hl⟩, y', hqs, rfl⟩ := (represent_cons_iff t).1 hq
    obtain ⟨rs, hrs, hr⟩ := ih hps hqs
    refine ⟨.mk b (k + l) :: rs, by rw [hrs]; rfl, (represent_cons_iff t).2 ⟨⟨hb, ?_⟩, _, hr, ?_⟩⟩
    · exact fun hkl => (show k < 0 ∨ l < 0 by omega).elim hk hl
    · rw [Power.value, Power.value, Power.value, zpow_add_of_ne_zero hk hl, mul_mul_mul_comm]

/-- A product of powers other than zero can be inverted power by power. -/
theorem represent_map_inverse {ps : List Power} {x : K} (h : Represent t ps x) (hx : x ≠ 0) :
    Represent t (ps.map inverse) x⁻¹ := by
  induction ps generalizing x with
  | nil => rw [← h.2, Product.powersValue, inv_one]; exact represent_nil t
  | cons p ps ih =>
    obtain ⟨b, k⟩ := p
    obtain ⟨⟨hb, hk⟩, y, hps, rfl⟩ := (represent_cons_iff t).1 h
    refine (represent_cons_iff t).2 ⟨⟨hb, fun hneg hzero => ?_⟩, _, ih hps (right_ne_zero_of_mul hx), ?_⟩
    · rw [Power.value, hzero, zero_zpow k (by omega), zero_mul] at hx
      exact hx rfl
    · rw [inverse, Power.value, Power.value, zpow_neg, mul_inv]

/-- The whole powers of two taken out of a product of powers are a factor of it. -/
theorem represent_extractTwos [CharZero K] {ps : List Power} {x : K} (h : Represent t ps x) :
    (extractTwos ps).1 ≠ 0 ∧
      ∃ y, Represent t (extractTwos ps).2 y ∧ x = ((extractTwos ps).1 : K) * y := by
  have hsame : (1 : Rat) ≠ 0 ∧ ∃ y, Represent t ps y ∧ x = ((1 : Rat) : K) * y :=
    ⟨one_ne_zero, x, h, by rw [Rat.cast_one, one_mul]⟩
  match ps, h, hsame with
  | [], _, hsame => exact hsame
  | .mk (.sum _) _ :: _, _, hsame => exact hsame
  | .mk (.atom .rootPi) _ :: _, _, hsame => exact hsame
  | .mk (.atom .e) _ :: _, _, hsame => exact hsame
  | .mk (.atom .lnTwo) _ :: _, _, hsame => exact hsame
  | .mk (.atom .lnTen) _ :: _, _, hsame => exact hsame
  | .mk (.atom (.unknown _)) _ :: _, _, hsame => exact hsame
  | .mk (.atom .rootTwo) k :: rest, h, _ =>
    obtain ⟨-, y, hrest, rfl⟩ := (represent_cons_iff t).1 h
    have hpow : Power.value t (.mk (.atom .rootTwo) k) =
        (((2 : Rat) ^ (k / 2) : Rat) : K) * t.value .rootTwo ^ (k % 2) := by
      have hne : t.value .rootTwo ≠ 0 := t.ne_zero _ rfl
      conv_lhs => rw [Power.value, Base.value, ← Int.mul_ediv_add_emod k 2]
      rw [zpow_add₀ hne, zpow_mul, show (2 : Int) = ((2 : Nat) : Int) from rfl, zpow_natCast,
        t.rootTwo_sq, Rat.cast_zpow, Rat.cast_ofNat]
    rw [extractTwos]
    split
    · next hk =>
      refine ⟨zpow_ne_zero _ two_ne_zero, y, hrest, ?_⟩
      rw [hpow, hk, zpow_zero, mul_one]
    · next hk =>
      refine ⟨zpow_ne_zero _ two_ne_zero, t.value .rootTwo * y, ?_, ?_⟩
      · refine (represent_cons_iff t).2 ⟨⟨trivial, by omega⟩, y, hrest, ?_⟩
        rw [Power.value, Base.value, zpow_one]
      · rw [hpow, show k % 2 = 1 by omega, zpow_one, mul_assoc]

end Power

/-! ### Terms -/

namespace Product

/-- Regular terms whose sum has a given value. -/
def Represent (t : AtomValues K) (ts : List Product) (x : K) : Prop :=
  Combination.TermsRegular t ts ∧ Combination.termsValue t ts = x

theorem represent_nil : Represent t [] 0 := ⟨trivial, rfl⟩

theorem represent_cons_iff {s : Product} {ts : List Product} {x : K} :
    Represent t (s :: ts) x ↔ s.IsRegular t ∧ ∃ y, Represent t ts y ∧ x = s.value t + y := by
  simp only [Represent, Combination.TermsRegular, Combination.termsValue]
  constructor
  · rintro ⟨⟨hs, hts⟩, rfl⟩
    exact ⟨hs, _, ⟨hts, rfl⟩, rfl⟩
  · rintro ⟨hs, y, ⟨hts, rfl⟩, rfl⟩
    exact ⟨⟨hs, hts⟩, rfl⟩

theorem powers_eq_of_compareKind {s u : Product} (h : s.compareKind u = .eq) :
    s.powers = u.powers := by
  rw [compareKind, Ordering.then_eq_eq] at h
  exact eq_of_comparePowers h.1

variable [CharZero K]

/-- Merging rising lists of terms adds them. -/
theorem represent_mergeTerms {ss ts : List Product} {x y : K} (hs : Represent t ss x)
    (ht : Represent t ts y) : Represent t (mergeTerms ss ts) (x + y) := by
  fun_induction mergeTerms ss ts generalizing x y with
  | case1 ts => rwa [← hs.2, Combination.termsValue, zero_add]
  | case2 ss _ => rwa [← ht.2, Combination.termsValue, add_zero]
  | case3 s ss u ts _ ih =>
    obtain ⟨hreg, x', hss, rfl⟩ := (represent_cons_iff t).1 hs
    exact (represent_cons_iff t).2 ⟨hreg, _, ih hss ht, add_assoc ..⟩
  | case4 s ss u ts _ ih =>
    obtain ⟨hreg, y', hts, rfl⟩ := (represent_cons_iff t).1 ht
    exact (represent_cons_iff t).2 ⟨hreg, _, ih hs hts, add_left_comm ..⟩
  | case5 s ss u ts heq r hr ih =>
    obtain ⟨c, ps⟩ := s
    obtain ⟨d, qs⟩ := u
    obtain rfl : ps = qs := powers_eq_of_compareKind heq
    obtain ⟨⟨hc, hps⟩, x', hss, rfl⟩ := (represent_cons_iff t).1 hs
    obtain ⟨⟨hd, -⟩, y', hts, rfl⟩ := (represent_cons_iff t).1 ht
    obtain ⟨p, rfl⟩ := Scale.eq_finite_of_not_isUnbounded hc
    obtain ⟨q, rfl⟩ := Scale.eq_finite_of_not_isUnbounded hd
    simp only [addLike, Option.ite_none_left_eq_some, Option.some.injEq] at hr
    obtain ⟨-, rfl⟩ := hr
    refine (represent_cons_iff t).2 ⟨⟨rfl, hps⟩, _, ih hss hts, ?_⟩
    simp only [Product.value, Scale.value, Rat.cast_add]
    ring
  | case6 s ss u ts heq hnone ih =>
    obtain ⟨c, ps⟩ := s
    obtain ⟨d, qs⟩ := u
    obtain rfl : ps = qs := powers_eq_of_compareKind heq
    obtain ⟨⟨hc, hps⟩, x', hss, rfl⟩ := (represent_cons_iff t).1 hs
    obtain ⟨⟨hd, -⟩, y', hts, rfl⟩ := (represent_cons_iff t).1 ht
    obtain ⟨p, rfl⟩ := Scale.eq_finite_of_not_isUnbounded hc
    obtain ⟨q, rfl⟩ := Scale.eq_finite_of_not_isUnbounded hd
    simp only [addLike, ite_eq_left_iff, reduceCtorEq, imp_false, not_not] at hnone
    have hcancel : (p : K) + (q : K) = 0 := by rw [← Rat.cast_add, hnone, Rat.cast_zero]
    have := ih hss hts
    rwa [show Product.value t (.mk (.finite p) ps) + x' + (Product.value t (.mk (.finite q) ps) + y') =
      ((p : K) + (q : K)) * powersValue t ps + (x' + y') by
        simp only [Product.value, Scale.value]; ring, hcancel, zero_mul, zero_add]

theorem represent_map_scale (p : Rat) {ts : List Product} {x : K} (h : Represent t ts x) :
    Represent t (ts.map (scale p)) ((p : K) * x) := by
  induction ts generalizing x with
  | nil => rw [← h.2, Combination.termsValue, mul_zero]; exact represent_nil t
  | cons s ts ih =>
    obtain ⟨c, ps⟩ := s
    obtain ⟨⟨hc, hps⟩, y, hts, rfl⟩ := (represent_cons_iff t).1 h
    obtain ⟨q, rfl⟩ := Scale.eq_finite_of_not_isUnbounded hc
    refine (represent_cons_iff t).2 ⟨⟨rfl, hps⟩, _, ih hts, ?_⟩
    simp only [scale, Product.value, Scale.value, Rat.cast_mul]
    ring

end Product

/-! ### Combinations -/

namespace Combination

theorem represents_mk_iff {q : Rat} {ts : List Product} {x : K} :
    (mk (.finite q) ts).Represents t x ↔ ∃ y, Product.Represent t ts y ∧ x = (q : K) + y := by
  simp only [Represents, IsRegular, value, Scale.isUnbounded, Scale.value, Product.Represent,
    true_and]
  constructor
  · rintro ⟨hreg, rfl⟩
    exact ⟨_, ⟨hreg, rfl⟩, rfl⟩
  · rintro ⟨y, ⟨hreg, rfl⟩, rfl⟩
    exact ⟨hreg, rfl⟩

theorem exists_finite_of_represents {c : Combination} {x : K} (h : c.Represents t x) :
    ∃ q ts, c = mk (.finite q) ts := by
  obtain ⟨c, ts⟩ := c
  obtain ⟨q, rfl⟩ := Scale.eq_finite_of_not_isUnbounded h.1.1
  exact ⟨q, ts, rfl⟩

theorem represents_ofRat (q : Rat) : (ofRat q).Represents t (q : K) :=
  (represents_mk_iff t).2 ⟨0, Product.represent_nil t, by rw [add_zero]⟩

theorem represents_of_toRat? {c : Combination} {q : Rat} {x : K} (h : c.Represents t x)
    (hq : c.toRat? = some q) : x = (q : K) := by
  obtain ⟨p, ts, rfl⟩ := exists_finite_of_represents t h
  cases ts with
  | nil =>
    obtain rfl : p = q := Option.some.inj hq
    obtain ⟨y, hy, rfl⟩ := (represents_mk_iff t).1 h
    rw [← hy.2, termsValue, add_zero]
  | cons s ts => cases hq

/-- A combination seen as a multiple of powers has the same value. -/
theorem represents_asProduct {c : Combination} {x : K} (h : c.Represents t x) :
    c.asProduct.Represents t x := by
  have hself : ∀ d : Combination, d.Represents t x →
      (Product.mk (.finite 1) [.mk (.sum d) 1]).Represents t x := by
    intro d hd
    refine (Product.represents_mk_iff t).2 ⟨x, (Power.represent_cons_iff t).2
      ⟨⟨hd.1, by omega⟩, 1, Power.represent_nil t, ?_⟩, by rw [Rat.cast_one, one_mul]⟩
    rw [Power.value, Base.value, hd.2, zpow_one, mul_one]
  obtain ⟨q, ts, rfl⟩ := exists_finite_of_represents t h
  match ts with
  | [] =>
    obtain ⟨y, hy, rfl⟩ := (represents_mk_iff t).1 h
    refine (Product.represents_mk_iff t).2 ⟨1, Power.represent_nil t, ?_⟩
    rw [← hy.2, termsValue, add_zero, mul_one]
  | [s] =>
    rw [asProduct]
    split
    · next hq =>
      obtain ⟨y, hy, rfl⟩ := (represents_mk_iff t).1 h
      obtain ⟨hreg, z, hz, rfl⟩ := (Product.represent_cons_iff t).1 hy
      refine ⟨hreg, ?_⟩
      rw [← hz.2, termsValue, add_zero, hq, Rat.cast_zero, zero_add]
    · exact hself _ h
  | _ :: _ :: _ => exact hself _ h

variable [CharZero K]

theorem represents_scale (p : Rat) {c : Combination} {x : K} (h : c.Represents t x) :
    (c.scale p).Represents t ((p : K) * x) := by
  obtain ⟨q, ts, rfl⟩ := exists_finite_of_represents t h
  obtain ⟨y, hy, rfl⟩ := (represents_mk_iff t).1 h
  refine (represents_mk_iff t).2 ⟨_, Product.represent_map_scale t p hy, ?_⟩
  rw [Rat.cast_mul, mul_add]

theorem represents_add? {c d : Combination} {x y : K} (hc : c.Represents t x)
    (hd : d.Represents t y) : ∃ r, c.add? d = some r ∧ r.Represents t (x + y) := by
  obtain ⟨p, ts, rfl⟩ := exists_finite_of_represents t hc
  obtain ⟨q, us, rfl⟩ := exists_finite_of_represents t hd
  obtain ⟨x', hts, rfl⟩ := (represents_mk_iff t).1 hc
  obtain ⟨y', hus, rfl⟩ := (represents_mk_iff t).1 hd
  refine ⟨_, rfl, (represents_mk_iff t).2 ⟨_, Product.represent_mergeTerms t hts hus, ?_⟩⟩
  rw [Rat.cast_add]
  ring

theorem represents_sub? {c d : Combination} {x y : K} (hc : c.Represents t x)
    (hd : d.Represents t y) : ∃ r, c.sub? d = some r ∧ r.Represents t (x - y) := by
  have hneg : d.negate.Represents t (-y) := by
    have := represents_scale t (-1) hd
    rwa [Rat.cast_neg, Rat.cast_one, neg_one_mul] at this
  rw [sub_eq_add_neg]
  exact represents_add? t hc hneg

/-- The combination of a multiple of powers has the same value. -/
theorem represents_ofProduct {s : Product} {x : K} (h : s.Represents t x) :
    (ofProduct s).Represents t x := by
  obtain ⟨c, ps⟩ := s
  obtain ⟨q, rfl⟩ := Scale.eq_finite_of_not_isUnbounded h.1.1
  obtain ⟨y, hy, rfl⟩ := (Product.represents_mk_iff t).1 h
  obtain ⟨htwo, z, hz, rfl⟩ := Power.represent_extractTwos t hy
  rw [ofProduct]
  rcases hex : Power.extractTwos ps with ⟨two, rest⟩
  simp only [hex] at htwo hz ⊢
  rw [← mul_assoc, ← Rat.cast_mul]
  have hkeep : (mk (.finite 0) [.mk (.finite (q * two)) rest]).Represents t
      (((q * two : Rat) : K) * z) := by
    refine (represents_mk_iff t).2 ⟨_, (Product.represent_cons_iff t).2
      ⟨⟨rfl, hz.1⟩, 0, Product.represent_nil t, rfl⟩, ?_⟩
    rw [Rat.cast_zero, zero_add, add_zero, Product.value, Scale.value, hz.2]
  split
  · next hzero =>
    rw [hzero, Rat.cast_zero, zero_mul, ← Rat.cast_zero (α := K)]
    exact represents_ofRat t 0
  · split
    · rw [← hz.2, Product.powersValue, mul_one]
      exact represents_ofRat t _
    · next s =>
      obtain ⟨hreg, w, hw, rfl⟩ := (Power.represent_cons_iff t).1 hz
      rw [← hw.2, Product.powersValue, mul_one, Power.value, zpow_one, Base.value]
      exact represents_scale t _ ⟨hreg.1, rfl⟩
    · exact hkeep

theorem represents_times? {s u : Product} {x y : K} (hs : s.Represents t x)
    (hu : u.Represents t y) : ∃ r, times? s u = some r ∧ r.Represents t (x * y) := by
  obtain ⟨c, ps⟩ := s
  obtain ⟨d, qs⟩ := u
  obtain ⟨p, rfl⟩ := Scale.eq_finite_of_not_isUnbounded hs.1.1
  obtain ⟨q, rfl⟩ := Scale.eq_finite_of_not_isUnbounded hu.1.1
  obtain ⟨x', hps, rfl⟩ := (Product.represents_mk_iff t).1 hs
  obtain ⟨y', hqs, rfl⟩ := (Product.represents_mk_iff t).1 hu
  obtain ⟨rs, hrs, hr⟩ := Power.represent_merge? t hps hqs
  refine ⟨.mk (.finite (p * q)) rs, ?_, (Product.represents_mk_iff t).2 ⟨_, hr, ?_⟩⟩
  · simp [times?, Scale.mul?, hrs]
  · rw [Rat.cast_mul]
    ring

theorem represents_mul? {c d : Combination} {x y : K} (hc : c.Represents t x)
    (hd : d.Represents t y) : ∃ r, c.mul? d = some r ∧ r.Represents t (x * y) := by
  obtain ⟨s, hs, hr⟩ := represents_times? t (represents_asProduct t hc) (represents_asProduct t hd)
  exact ⟨ofProduct s, by rw [mul?, hs]; rfl, represents_ofProduct t hr⟩

theorem represents_inverse {c : Combination} {x : K} (hc : c.Represents t x) (hx : x ≠ 0) :
    c.inverse.Represents t x⁻¹ := by
  have hprod := represents_asProduct t hc
  rw [inverse]
  rcases hform : c.asProduct with ⟨s, ps⟩
  rw [hform] at hprod
  obtain ⟨q, rfl⟩ := Scale.eq_finite_of_not_isUnbounded hprod.1.1
  obtain ⟨y, hy, rfl⟩ := (Product.represents_mk_iff t).1 hprod
  have hq : q ≠ 0 := fun h => hx (by rw [h, Rat.cast_zero, zero_mul])
  refine represents_ofProduct t ?_
  rw [Scale.inverse, if_neg hq]
  refine (Product.represents_mk_iff t).2
    ⟨_, Power.represent_map_inverse t hy (right_ne_zero_of_mul hx), ?_⟩
  rw [Rat.cast_inv, mul_inv]

theorem represents_div? {c d : Combination} {x y : K} (hc : c.Represents t x)
    (hd : d.Represents t y) (hy : y ≠ 0) : ∃ r, c.div? d = some r ∧ r.Represents t (x / y) := by
  rw [div_eq_mul_inv]
  exact represents_mul? t hc (represents_inverse t hd hy)

/-- A multiple of one power of an atom. -/
theorem represents_atom (q : Rat) (a : Atom) (k : Int) (h : k < 0 → t.value a ≠ 0) :
    (ofProduct (.mk (.finite q) [.mk (.atom a) k])).Represents t ((q : K) * t.value a ^ k) := by
  refine represents_ofProduct t ((Product.represents_mk_iff t).2 ⟨_, ?_, rfl⟩)
  refine (Power.represent_cons_iff t).2 ⟨⟨trivial, h⟩, 1, Power.represent_nil t, ?_⟩
  rw [Power.value, Base.value, mul_one]

end Combination

/-! ### Expressions -/

variable [CharZero K]

theorem LeafValue.represents_combination (v : LeafValue) :
    v.combination.Represents t (v.value t.valuation) := by
  cases v with
  | number q => exact Combination.represents_ofRat t q
  | constant c =>
    exact Combination.represents_atom t _ _ _ fun _ => t.ne_zero _ (isUnknown_parts c)
  | unknown name =>
    have := Combination.represents_atom t 1 (.unknown name) 1 (by omega)
    rwa [Rat.cast_one, one_mul, zpow_one] at this

/-- **The gathered form of an expression represents its value.** -/
theorem Expr.combination_represents [DecidableEq K] {e : Expr} {x : K} {form : Option Combination}
    (hform : e.combination = .ok form) (h : e.value? t.valuation = some x) :
    ∃ c, form = some c ∧ c.Represents t x := by
  induction e generalizing x form with
  | leaf operand =>
    obtain ⟨v, hv, hform⟩ := exists_of_bind_eq_ok hform
    obtain rfl : some v.combination = form := Except.ok.inj hform
    rw [value?, Operand.meaning?_of_read hv] at h
    obtain rfl : v.value t.valuation = x := Option.some.inj h
    exact ⟨_, rfl, v.represents_combination t⟩
  | node lhs op rhs ihl ihr =>
    rw [value?_node] at h
    obtain ⟨y, z, hy, hz⟩ := Operator.exists_of_onValues? h
    obtain ⟨l, hl, hform⟩ := exists_of_bind_eq_ok hform
    obtain ⟨r, hr, hform⟩ := exists_of_bind_eq_ok hform
    obtain ⟨c, rfl, hcy⟩ := ihl hl hy
    obtain ⟨d, rfl, hdz⟩ := ihr hr hz
    obtain rfl : op.combine? (some c) (some d) = form := Except.ok.inj hform
    rw [hy, hz] at h
    cases op with
    | mul =>
      obtain rfl := Option.some.inj h
      exact Combination.represents_mul? t hcy hdz
    | div =>
      rw [Operator.div_onValues?] at h
      split at h
      · cases h
      · next hne =>
        obtain rfl := Option.some.inj h
        exact Combination.represents_div? t hcy hdz hne
    | add =>
      obtain rfl := Option.some.inj h
      exact Combination.represents_add? t hcy hdz
    | sub =>
      obtain rfl := Option.some.inj h
      exact Combination.represents_sub? t hcy hdz

end LinearRelations
