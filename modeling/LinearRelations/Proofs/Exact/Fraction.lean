import LinearRelations.Proofs.Exact.Gathered
import LinearRelations.Proofs.Exact.Polynomial
import LinearRelations.Proofs.Leaves

/-!
# Values of fractions

* `Fraction.Denotes`: the denominator of a fraction is not zero and its quotient is a given value;
* `Expr.fraction?_denotes`: an expression with a value is a fraction that denotes the value;
* `Combination.fraction?_denotes`: so is a combination;
* `Expr.isSome_value?_of_fraction?`: where no other polynomial is zero than those that vanish, an
  expression that is a fraction has a value.
-/

namespace LinearRelations

variable {K : Type*} [Field K]

/-! ### The unknowns of a list of names -/

/-- The values of the atoms by index. -/
def AtomValues.unknowns (t : AtomValues K) (names : List String) : ℕ → K
  | 0 => t.value .rootTwo
  | 1 => t.value .rootPi
  | 2 => t.value .e
  | 3 => t.value .lnTwo
  | 4 => t.value .lnTen
  | k + 5 => t.value (.unknown (names.getD k ""))

theorem AtomValues.unknowns_index (t : AtomValues K) {names : List String} {a : Atom}
    (h : ∀ x, a = .unknown x → x ∈ names) :
    a.index names < unknownCount names + 1 ∧ t.unknowns names (a.index names) = t.value a := by
  cases a with
  | unknown x =>
    have hlt : names.idxOf x < names.length := List.idxOf_lt_length_iff.2 (h x rfl)
    refine ⟨?_, ?_⟩
    · simp only [Atom.index, unknownCount]
      omega
    · rw [Atom.index, Nat.add_comm, unknowns, List.getD_eq_getElem _ _ hlt, List.getElem_idxOf]
  | rootTwo => exact ⟨Nat.succ_pos _, rfl⟩
  | rootPi => exact ⟨by simp [Atom.index, Atom.rank, unknownCount], rfl⟩
  | e => exact ⟨by simp [Atom.index, Atom.rank, unknownCount], rfl⟩
  | lnTwo => exact ⟨by simp [Atom.index, Atom.rank, unknownCount], rfl⟩
  | lnTen => exact ⟨by simp [Atom.index, Atom.rank, unknownCount], rfl⟩

/-! ### Arithmetic of fractions -/

variable [CharZero K]

namespace Fraction

variable {n : ℕ} {u : ℕ → K} {f g : Fraction n} {x y : K}

/-- The denominator is not zero and the quotient is the value. -/
def Denotes (u : ℕ → K) (f : Fraction n) (x : K) : Prop :=
  f.den.eval u ≠ 0 ∧ f.num.eval u = x * f.den.eval u

theorem denotes_ofRat (q : ℚ) : (ofRat q : Fraction n).Denotes u (q : K) := by
  refine ⟨?_, ?_⟩
  · rw [ofRat, Polynomial.eval_ofRat, map_one]
    exact one_ne_zero
  · rw [ofRat, Polynomial.eval_ofRat, Polynomial.eval_ofRat, map_one, mul_one, eq_ratCast]

theorem denotes_unknown {i : ℕ} (h : i < n + 1) : (unknown i : Fraction n).Denotes u (u i) := by
  refine ⟨?_, ?_⟩
  · rw [unknown, Polynomial.eval_ofRat, map_one]
    exact one_ne_zero
  · rw [unknown, Polynomial.eval_unknown u h, Polynomial.eval_ofRat, map_one, mul_one]

theorem Denotes.neg (hf : f.Denotes u x) : f.neg.Denotes u (-x) := by
  refine ⟨hf.1, ?_⟩
  rw [Fraction.neg, Polynomial.eval_neg, hf.2, neg_mul]

theorem Denotes.add (hf : f.Denotes u x) (hg : g.Denotes u y) : (f.add g).Denotes u (x + y) := by
  rw [Fraction.add]
  split
  · next h =>
    refine ⟨hf.1, ?_⟩
    rw [Polynomial.eval_add, hf.2, hg.2, ← Polynomial.eval_eq_of_beq u h, add_mul]
  · refine ⟨?_, ?_⟩
    · rw [Polynomial.eval_mul]
      exact mul_ne_zero hf.1 hg.1
    · rw [Polynomial.eval_add, Polynomial.eval_mul, Polynomial.eval_mul, Polynomial.eval_mul, hf.2,
        hg.2]
      ring

theorem Denotes.mul (hf : f.Denotes u x) (hg : g.Denotes u y) : (f.mul g).Denotes u (x * y) := by
  refine ⟨?_, ?_⟩
  · rw [Fraction.mul, Polynomial.eval_mul]
    exact mul_ne_zero hf.1 hg.1
  · rw [Fraction.mul, Polynomial.eval_mul, Polynomial.eval_mul, hf.2, hg.2]
    ring

theorem Denotes.power (hf : f.Denotes u x) (k : ℕ) : (f.power k).Denotes u (x ^ k) := by
  induction k with
  | zero =>
    rw [pow_zero, ← Rat.cast_one (α := K)]
    exact denotes_ofRat 1
  | succ k ih =>
    rw [pow_succ]
    exact ih.mul hf

theorem Denotes.eq_zero_of_vanishes (hu : u 0 ^ 2 = 2) (hf : f.Denotes u x)
    (h : f.vanishes = true) : x = 0 := by
  have := hf.2
  rw [Polynomial.eval_eq_zero_of_vanishes hu h] at this
  exact (mul_eq_zero.1 this.symm).resolve_right hf.1

theorem Denotes.inverse? (hu : u 0 ^ 2 = 2) (hf : f.Denotes u x) (hx : x ≠ 0) :
    ∃ g, f.inverse? = some g ∧ g.Denotes u x⁻¹ := by
  refine ⟨⟨f.den, f.num⟩, if_neg fun h => hx (hf.eq_zero_of_vanishes hu h), ?_, ?_⟩
  · rw [hf.2]
    exact mul_ne_zero hx hf.1
  · rw [hf.2, inv_mul_cancel_left₀ hx]

theorem Denotes.raise? (hu : u 0 ^ 2 = 2) (hf : f.Denotes u x) {k : ℤ} (hx : k < 0 → x ≠ 0) :
    ∃ g, f.raise? k = some g ∧ g.Denotes u (x ^ k) := by
  match k with
  | .ofNat k => exact ⟨f.power k, rfl, by rw [Int.ofNat_eq_natCast, zpow_natCast]; exact hf.power k⟩
  | .negSucc k =>
    obtain ⟨g, hg, hgx⟩ := hf.inverse? hu (hx (Int.negSucc_lt_zero k))
    refine ⟨g.power (k + 1), by rw [Fraction.raise?, hg]; rfl, ?_⟩
    rw [zpow_negSucc, ← inv_pow]
    exact hgx.power (k + 1)

end Fraction

variable (t : AtomValues K) {names : List String}

theorem AtomValues.denotes_atom {a : Atom} (h : ∀ x, a = .unknown x → x ∈ names) :
    (Fraction.unknown (a.index names) : Fraction (unknownCount names)).Denotes (t.unknowns names)
      (t.value a) := by
  obtain ⟨hlt, hval⟩ := t.unknowns_index h
  rw [← hval]
  exact Fraction.denotes_unknown hlt

/-! ### Expressions -/

theorem LeafValue.fraction?_denotes (v : LeafValue) (h : ∀ x, v = .unknown x → x ∈ names) :
    ∃ f, v.fraction? names = some f ∧ f.Denotes (t.unknowns names) (v.value t.valuation) := by
  cases v with
  | number q => exact ⟨_, rfl, Fraction.denotes_ofRat q⟩
  | constant c =>
    have hc := isUnknown_parts c
    have hmem : ∀ x, c.parts.2.1 = .unknown x → x ∈ names := fun x hx => by
      rw [hx] at hc
      cases hc
    obtain ⟨g, hg, hgx⟩ := (t.denotes_atom hmem).raise? t.rootTwo_sq (k := c.parts.2.2) fun _ => t.ne_zero _ hc
    exact ⟨_, congrArg (Option.map _) hg, (Fraction.denotes_ofRat _).mul hgx⟩
  | unknown x =>
    exact ⟨_, rfl, t.denotes_atom (a := .unknown x) fun y hy => h y (by rw [Atom.unknown.inj hy])⟩

/-- **An expression with a value is a fraction that denotes it.** -/
theorem Expr.fraction?_denotes [DecidableEq K] {e : Expr} {x : K}
    (h : e.value? t.valuation = some x) (hnames : e.variables ⊆ names) :
    ∃ f, e.fraction? names = some f ∧ f.Denotes (t.unknowns names) x := by
  induction e generalizing x with
  | leaf operand =>
    obtain ⟨v, hv, rfl⟩ := Option.map_eq_some_iff.1 h
    have hmem : ∀ y, v = .unknown y → y ∈ names := fun y hy =>
      hnames (Operand.mem_variables_of_meaning? (hy ▸ hv))
    obtain ⟨f, hf, hfx⟩ := v.fraction?_denotes t hmem
    exact ⟨f, by rw [fraction?, hv, Option.bind_some, hf], hfx⟩
  | node lhs op rhs ihl ihr =>
    rw [value?_node] at h
    obtain ⟨y, z, hy, hz⟩ := Operator.exists_of_onValues? h
    obtain ⟨f, hf, hfy⟩ := ihl hy fun x hx => hnames (mem_variables_node.2 (.inl hx))
    obtain ⟨g, hg, hgz⟩ := ihr hz fun x hx => hnames (mem_variables_node.2 (.inr hx))
    have hfrac : (node lhs op rhs).fraction? names = op.fraction? f g := by
      simp [fraction?, hf, hg]
    rw [hy, hz] at h
    rw [hfrac]
    cases op with
    | mul => exact ⟨_, rfl, Option.some.inj h ▸ hfy.mul hgz⟩
    | div =>
      rw [Operator.div_onValues?] at h
      split at h
      · cases h
      · next hne =>
        obtain ⟨g', hg', hgz'⟩ := hgz.inverse? t.rootTwo_sq hne
        refine ⟨f.mul g', by rw [Operator.fraction?, hg']; rfl, ?_⟩
        rw [← Option.some.inj h, div_eq_mul_inv]
        exact hfy.mul hgz'
    | add => exact ⟨_, rfl, Option.some.inj h ▸ hfy.add hgz⟩
    | sub =>
      refine ⟨_, rfl, ?_⟩
      rw [← Option.some.inj h, sub_eq_add_neg]
      exact hfy.add hgz.neg

/-- If only those polynomials are zero that vanish, an expression that is a fraction has a
value. -/
theorem Expr.isSome_value?_of_fraction? [DecidableEq K]
    (hfaithful : ∀ p : Polynomial (unknownCount names + 1), p.eval (t.unknowns names) = 0 →
      p.vanishes = true) {e : Expr} {f : Fraction (unknownCount names)}
    (h : e.fraction? names = some f) (hnames : e.variables ⊆ names) :
    ∃ x, e.value? t.valuation = some x := by
  induction e generalizing f with
  | leaf operand =>
    obtain ⟨v, hv, -⟩ := Option.bind_eq_some_iff.1 h
    exact ⟨v.value t.valuation, by rw [value?, hv, Option.map_some]⟩
  | node lhs op rhs ihl ihr =>
    rw [fraction?] at h
    obtain ⟨g, hg, h⟩ := Option.bind_eq_some_iff.1 h
    obtain ⟨k, hk, h⟩ := Option.bind_eq_some_iff.1 h
    have hl : lhs.variables ⊆ names := fun x hx => hnames (mem_variables_node.2 (.inl hx))
    have hr : rhs.variables ⊆ names := fun x hx => hnames (mem_variables_node.2 (.inr hx))
    obtain ⟨y, hy⟩ := ihl hg hl
    obtain ⟨z, hz⟩ := ihr hk hr
    rw [value?_node, hy, hz]
    cases op with
    | mul => exact ⟨_, rfl⟩
    | add => exact ⟨_, rfl⟩
    | sub => exact ⟨_, rfl⟩
    | div =>
      obtain ⟨k', hk', hkz⟩ := fraction?_denotes t hz hr
      obtain rfl : k' = k := Option.some.inj (hk'.symm.trans hk)
      have hne : z ≠ 0 := by
        rintro rfl
        have hvanish : k'.vanishes = true := hfaithful _ (by rw [hkz.2, zero_mul])
        simp [Operator.fraction?, Fraction.inverse?, hvanish] at h
      exact ⟨y / z, by rw [Operator.div_onValues?, if_neg hne]⟩

/-! ### Combinations -/

theorem Scale.fraction?_denotes {n : ℕ} {u : ℕ → K} {c : Scale} (h : c.isUnbounded = false) :
    ∃ f : Fraction n, c.fraction? = some f ∧ f.Denotes u c.value := by
  obtain ⟨q, rfl⟩ := Scale.eq_finite_of_not_isUnbounded h
  exact ⟨_, rfl, Fraction.denotes_ofRat q⟩

mutual

/-- **A regular combination is a fraction that denotes its value.** -/
theorem Combination.fraction?_denotes : ∀ {c : Combination}, c.IsRegular t →
    c.hasVariable (fun x => !names.contains x) = false →
    ∃ f, c.fraction? names = some f ∧ f.Denotes (t.unknowns names) (c.value t)
  | .mk c ts, hreg, hvar => by
    obtain ⟨f, hf, hfx⟩ := Scale.fraction?_denotes (u := t.unknowns names) hreg.1
    obtain ⟨g, hg, hgx⟩ := Combination.termsFraction?_denotes hreg.2 hvar hfx
    exact ⟨g, by rw [Combination.fraction?, hf]; exact hg, hgx⟩

theorem Combination.termsFraction?_denotes : ∀ {ts : List Product} {sum : Fraction (unknownCount names)}
    {x : K}, Combination.TermsRegular t ts →
    Combination.termsHaveVariable (fun x => !names.contains x) ts = false →
    sum.Denotes (t.unknowns names) x →
    ∃ f, Combination.termsFraction? names sum ts = some f ∧
      f.Denotes (t.unknowns names) (x + Combination.termsValue t ts)
  | [], sum, x, _, _, hsum => ⟨sum, rfl, by rwa [Combination.termsValue, add_zero]⟩
  | s :: ts, sum, x, hreg, hvar, hsum => by
    rw [Combination.termsHaveVariable, Bool.or_eq_false_iff] at hvar
    obtain ⟨f, hf, hfx⟩ := Product.fraction?_denotes hreg.1 hvar.1
    obtain ⟨g, hg, hgx⟩ := Combination.termsFraction?_denotes hreg.2 hvar.2 (hsum.add hfx)
    refine ⟨g, by rw [Combination.termsFraction?, hf]; exact hg, ?_⟩
    rwa [Combination.termsValue, ← add_assoc]

theorem Product.fraction?_denotes : ∀ {s : Product}, s.IsRegular t →
    s.hasVariable (fun x => !names.contains x) = false →
    ∃ f, s.fraction? names = some f ∧ f.Denotes (t.unknowns names) (s.value t)
  | .mk c ps, hreg, hvar => by
    obtain ⟨f, hf, hfx⟩ := Scale.fraction?_denotes (u := t.unknowns names) hreg.1
    obtain ⟨g, hg, hgx⟩ := Product.powersFraction?_denotes hreg.2 hvar hfx
    exact ⟨g, by rw [Product.fraction?, hf]; exact hg, hgx⟩

theorem Product.powersFraction?_denotes : ∀ {ps : List Power}
    {product : Fraction (unknownCount names)} {x : K}, Product.PowersRegular t ps →
    Product.powersHaveVariable (fun x => !names.contains x) ps = false →
    product.Denotes (t.unknowns names) x →
    ∃ f, Product.powersFraction? names product ps = some f ∧
      f.Denotes (t.unknowns names) (x * Product.powersValue t ps)
  | [], product, x, _, _, hproduct => ⟨product, rfl, by rwa [Product.powersValue, mul_one]⟩
  | p :: ps, product, x, hreg, hvar, hproduct => by
    rw [Product.powersHaveVariable, Bool.or_eq_false_iff] at hvar
    obtain ⟨f, hf, hfx⟩ := Power.fraction?_denotes hreg.1 hvar.1
    obtain ⟨g, hg, hgx⟩ := Product.powersFraction?_denotes hreg.2 hvar.2 (hproduct.mul hfx)
    refine ⟨g, by rw [Product.powersFraction?, hf]; exact hg, ?_⟩
    rwa [Product.powersValue, ← mul_assoc]

theorem Power.fraction?_denotes : ∀ {p : Power}, p.IsRegular t →
    p.hasVariable (fun x => !names.contains x) = false →
    ∃ f, p.fraction? names = some f ∧ f.Denotes (t.unknowns names) (p.value t)
  | .mk b k, hreg, hvar => by
    obtain ⟨f, hf, hfx⟩ := Base.fraction?_denotes hreg.1 hvar
    obtain ⟨g, hg, hgx⟩ := hfx.raise? t.rootTwo_sq hreg.2
    exact ⟨g, by rw [Power.fraction?, hf]; exact hg, hgx⟩

theorem Base.fraction?_denotes : ∀ {b : Base}, b.IsRegular t →
    b.hasVariable (fun x => !names.contains x) = false →
    ∃ f, b.fraction? names = some f ∧ f.Denotes (t.unknowns names) (b.value t)
  | .atom a, _, hvar => by
    refine ⟨_, rfl, t.denotes_atom fun x hx => ?_⟩
    subst hx
    simpa [Base.hasVariable] using hvar
  | .sum c, hreg, hvar => by
    rw [Base.fraction?]
    exact Combination.fraction?_denotes hreg hvar

end

end LinearRelations
