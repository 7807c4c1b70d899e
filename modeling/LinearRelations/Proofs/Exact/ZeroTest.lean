import LinearRelations.Proofs.Exact.Formal
import LinearRelations.Proofs.Exact.Rename
import LinearRelations.Proofs.Rename

/-!
# The zero test by other names

The zero test reads nothing off an expression but its gathered form, and finds an expression to be
zero where the form has formal values and these are zero. Formal values do not depend on the order
in which a form lists its terms, so the test does not depend on what the variables are called.

* `AtomValues.IsFaithful`: values at which only those polynomials are zero that vanish;
* `Expr.exists_isZero_iff_represents`: the zero test in terms of the gathered form;
* `Combination.represents_rename_iff`: the values of a renamed form;
* `Expr.combination_rename`: the form of a renamed expression is the renamed form;
* `Expr.isZero_rename`: renaming does not change what is found to be zero.
-/

namespace LinearRelations

variable {K : Type*} [Field K]

/-! ### The zero test and the gathered form -/

/-- Values of the atoms at which no polynomial is zero that does not vanish. -/
def AtomValues.IsFaithful [CharZero K] (t : AtomValues K) (names : List String) : Prop :=
  ∀ p : Polynomial (unknownCount names + 1), p.eval (t.unknowns names) = 0 → p.vanishes = true

section Faithful

variable [CharZero K] {t : AtomValues K} {names : List String}

theorem Fraction.Denotes.vanishes_iff (ht : t.IsFaithful names) {f : Fraction (unknownCount names)} {x : K}
    (hf : f.Denotes (t.unknowns names) x) : f.vanishes = true ↔ x = 0 := by
  refine ⟨hf.eq_zero_of_vanishes t.rootTwo_sq, ?_⟩
  rintro rfl
  exact ht _ (by rw [hf.2, zero_mul])

theorem Scale.isUnbounded_of_fraction? {n : ℕ} {c : Scale} {f : Fraction n} (h : c.fraction? = some f) :
    c.isUnbounded = false := by
  cases c with
  | finite q => rfl
  | unbounded => cases h

/-- Only what is not zero has a fraction as its negative power. -/
theorem Fraction.Denotes.ne_zero_of_raise? (ht : t.IsFaithful names) {f g : Fraction (unknownCount names)}
    {x : K} {k : ℤ} (hf : f.Denotes (t.unknowns names) x) (h : f.raise? k = some g) (hk : k < 0) : x ≠ 0 := by
  match k with
  | .ofNat k => exact absurd hk (Int.not_lt.2 (Int.natCast_nonneg k))
  | .negSucc k =>
    obtain ⟨inv, hinv, -⟩ := Option.map_eq_some_iff.1 h
    intro hzero
    rw [Fraction.inverse?, if_pos ((hf.vanishes_iff ht).2 hzero)] at hinv
    cases hinv

mutual

/-- **A combination that is a fraction is regular** at faithful values. -/
theorem Combination.isRegular_of_fraction? (ht : t.IsFaithful names) :
    ∀ {c : Combination} {f : Fraction (unknownCount names)}, c.fraction? names = some f →
      c.hasVariable (fun x => !names.contains x) = false → c.IsRegular t
  | .mk _ _, _, h, hvar => by
    obtain ⟨_, hc, h⟩ := Option.bind_eq_some_iff.1 h
    exact ⟨Scale.isUnbounded_of_fraction? hc, Combination.termsRegular_of_fraction? ht h hvar⟩

theorem Combination.termsRegular_of_fraction? (ht : t.IsFaithful names) :
    ∀ {ts : List Product} {sum f : Fraction (unknownCount names)},
      Combination.termsFraction? names sum ts = some f →
      Combination.termsHaveVariable (fun x => !names.contains x) ts = false → Combination.TermsRegular t ts
  | [], _, _, _, _ => trivial
  | _ :: _, _, _, h, hvar => by
    rw [Combination.termsHaveVariable, Bool.or_eq_false_iff] at hvar
    obtain ⟨_, hs, h⟩ := Option.bind_eq_some_iff.1 h
    exact ⟨Product.isRegular_of_fraction? ht hs hvar.1, Combination.termsRegular_of_fraction? ht h hvar.2⟩

theorem Product.isRegular_of_fraction? (ht : t.IsFaithful names) :
    ∀ {s : Product} {f : Fraction (unknownCount names)}, s.fraction? names = some f →
      s.hasVariable (fun x => !names.contains x) = false → s.IsRegular t
  | .mk _ _, _, h, hvar => by
    obtain ⟨_, hc, h⟩ := Option.bind_eq_some_iff.1 h
    exact ⟨Scale.isUnbounded_of_fraction? hc, Product.powersRegular_of_fraction? ht h hvar⟩

theorem Product.powersRegular_of_fraction? (ht : t.IsFaithful names) :
    ∀ {ps : List Power} {product f : Fraction (unknownCount names)},
      Product.powersFraction? names product ps = some f →
      Product.powersHaveVariable (fun x => !names.contains x) ps = false → Product.PowersRegular t ps
  | [], _, _, _, _ => trivial
  | _ :: _, _, _, h, hvar => by
    rw [Product.powersHaveVariable, Bool.or_eq_false_iff] at hvar
    obtain ⟨_, hp, h⟩ := Option.bind_eq_some_iff.1 h
    exact ⟨Power.isRegular_of_fraction? ht hp hvar.1, Product.powersRegular_of_fraction? ht h hvar.2⟩

theorem Power.isRegular_of_fraction? (ht : t.IsFaithful names) :
    ∀ {p : Power} {f : Fraction (unknownCount names)}, p.fraction? names = some f →
      p.hasVariable (fun x => !names.contains x) = false → p.IsRegular t
  | .mk b k, _, h, hvar => by
    obtain ⟨g, hg, h⟩ := Option.bind_eq_some_iff.1 h
    have hb := Base.isRegular_of_fraction? ht hg hvar
    obtain ⟨g', hg', hdenotes⟩ := Base.fraction?_denotes t hb hvar
    obtain rfl : g' = g := Option.some.inj (hg'.symm.trans hg)
    exact ⟨hb, hdenotes.ne_zero_of_raise? ht h⟩

theorem Base.isRegular_of_fraction? (ht : t.IsFaithful names) :
    ∀ {b : Base} {f : Fraction (unknownCount names)}, b.fraction? names = some f →
      b.hasVariable (fun x => !names.contains x) = false → b.IsRegular t
  | .atom _, _, _, _ => trivial
  | .sum c, _, h, hvar => Combination.isRegular_of_fraction? (c := c) ht h hvar

end

/-- **A combination is found to be zero** where it has a value and that is zero. -/
theorem Combination.isZero_iff_represents (ht : t.IsFaithful names) {c : Combination}
    (hvar : c.hasVariable (fun x => !names.contains x) = false) :
    c.isZero names = true ↔ c.Represents t 0 := by
  rw [isZero]
  constructor
  · intro h
    rcases hf : c.fraction? names with _ | f
    · rw [hf] at h
      cases h
    · rw [hf] at h
      have hreg := isRegular_of_fraction? ht hf hvar
      obtain ⟨f', hf', hdenotes⟩ := fraction?_denotes t hreg hvar
      obtain rfl : f' = f := Option.some.inj (hf'.symm.trans hf)
      exact ⟨hreg, (hdenotes.vanishes_iff ht).1 h⟩
  · rintro ⟨hreg, hzero⟩
    obtain ⟨f, hf, hdenotes⟩ := fraction?_denotes t hreg hvar
    rw [hf]
    exact (hdenotes.vanishes_iff ht).2 hzero

open Classical in
/-- **The zero test reads the gathered form**: it finds an expression to be zero where its form has a
value and that is zero. -/
theorem Expr.exists_isZero_iff_represents {e : Expr} (ht : t.IsFaithful (sortedNames e.variables))
    {value : Option Combination} (h : e.combination = .ok value) :
    ∃ b, e.isZero = .ok b ∧ (b = true ↔ ∃ c, value = some c ∧ c.Represents t 0) := by
  rw [isZero, h]
  rcases hf : e.fraction? (sortedNames e.variables) with _ | f
  · refine ⟨_, by simp only [bind, Except.bind, hf]; rfl, ?_⟩
    rcases value with _ | c
    · simp
    have hvar : c.hasVariable (fun x => !(sortedNames e.variables).contains x) = false :=
      hasVariable_combination h fun x hx => by simpa using e.variables_subset_sortedNames hx
    simp [Combination.isZero_iff_represents ht hvar]
  · obtain ⟨x, hx⟩ := isSome_value?_of_fraction? t ht hf e.variables_subset_sortedNames
    obtain ⟨f', hf', hdenotes⟩ := fraction?_denotes t hx e.variables_subset_sortedNames
    obtain rfl : f' = f := Option.some.inj (hf'.symm.trans hf)
    obtain ⟨c, rfl, hrepresents⟩ := combination_represents t h hx
    refine ⟨f'.vanishes, by simp only [bind, Except.bind, hf]; rfl, ?_⟩
    rw [hdenotes.vanishes_iff ht]
    constructor
    · rintro rfl
      exact ⟨c, rfl, hrepresents⟩
    · rintro ⟨c', hc', hzero⟩
      obtain rfl := Option.some.inj hc'
      exact hrepresents.2.symm.trans hzero.2

end Faithful

/-! ### Values of renamed forms -/

variable {ρ : String → String}

theorem Atom.rename_of_isUnknown_eq_false {a : Atom} (h : a.isUnknown = false) : a.rename ρ = a := by
  cases a with
  | unknown name => cases h
  | _ => rfl

/-- A variable has the value that was given to its new name. -/
def AtomValues.renamed (ρ : String → String) (t : AtomValues K) : AtomValues K where
  value a := t.value (a.rename ρ)
  rootTwo_sq := t.rootTwo_sq
  ne_zero a h := by
    rw [Atom.rename_of_isUnknown_eq_false h]
    exact t.ne_zero a h

section Values

variable (t : AtomValues K)

theorem Product.powersValue_eq (ps : List Power) : powersValue t ps = (ps.map (Power.value t)).prod := by
  induction ps with
  | nil => rfl
  | cons p ps ih => rw [powersValue, ih, List.map_cons, List.prod_cons]

theorem Product.powersRegular_iff {ps : List Power} : PowersRegular t ps ↔ ∀ p ∈ ps, p.IsRegular t := by
  induction ps with
  | nil => simp [PowersRegular]
  | cons p ps ih => rw [PowersRegular, ih, List.forall_mem_cons]

theorem Combination.termsValue_eq (ts : List Product) : termsValue t ts = (ts.map (Product.value t)).sum := by
  induction ts with
  | nil => rfl
  | cons s ts ih => rw [termsValue, ih, List.map_cons, List.sum_cons]

theorem Combination.termsRegular_iff {ts : List Product} : TermsRegular t ts ↔ ∀ s ∈ ts, s.IsRegular t := by
  induction ts with
  | nil => simp [TermsRegular]
  | cons s ts ih => rw [TermsRegular, ih, List.forall_mem_cons]

theorem Product.powersValue_sorted (ps : List Power) :
    powersValue t (sorted Power.compareBase ps) = powersValue t ps := by
  rw [powersValue_eq, powersValue_eq]
  exact ((sorted_perm ps).map _).prod_eq

theorem Combination.termsValue_sorted (ts : List Product) :
    termsValue t (sorted Product.compareKind ts) = termsValue t ts := by
  rw [termsValue_eq, termsValue_eq]
  exact ((sorted_perm ts).map _).sum_eq

theorem Product.powersRegular_sorted {ps : List Power} :
    PowersRegular t (sorted Power.compareBase ps) ↔ PowersRegular t ps := by
  simp only [powersRegular_iff, mem_sorted]

theorem Combination.termsRegular_sorted {ts : List Product} :
    TermsRegular t (sorted Product.compareKind ts) ↔ TermsRegular t ts := by
  simp only [termsRegular_iff, mem_sorted]

mutual

/-- **A renamed form has the values of the form** where the variables have theirs by the new names. -/
theorem Combination.value_rename : ∀ c : Combination, (c.rename ρ).value t = c.value (t.renamed ρ)
  | .mk c ts => by
    rw [Combination.rename, Combination.value, Combination.termsValue_sorted,
      Combination.termsValue_rename, Combination.value]

theorem Combination.termsValue_rename : ∀ ts : List Product,
    Combination.termsValue t (Combination.renameTerms ρ ts) = Combination.termsValue (t.renamed ρ) ts
  | [] => rfl
  | s :: ts => by
    rw [Combination.renameTerms, Combination.termsValue, Product.value_rename,
      Combination.termsValue_rename, Combination.termsValue]

theorem Product.value_rename : ∀ s : Product, (s.rename ρ).value t = s.value (t.renamed ρ)
  | .mk c ps => by
    rw [Product.rename, Product.value, Product.powersValue_sorted, Product.powersValue_rename,
      Product.value]

theorem Product.powersValue_rename : ∀ ps : List Power,
    Product.powersValue t (Product.renamePowers ρ ps) = Product.powersValue (t.renamed ρ) ps
  | [] => rfl
  | p :: ps => by
    rw [Product.renamePowers, Product.powersValue, Power.value_rename, Product.powersValue_rename,
      Product.powersValue]

theorem Power.value_rename : ∀ p : Power, (p.rename ρ).value t = p.value (t.renamed ρ)
  | .mk b k => by rw [Power.rename, Power.value, Base.value_rename, Power.value]

theorem Base.value_rename : ∀ b : Base, (b.rename ρ).value t = b.value (t.renamed ρ)
  | .atom _ => rfl
  | .sum c => by rw [Base.rename, Base.value, Combination.value_rename, Base.value]

end

mutual

theorem Combination.isRegular_rename_iff : ∀ {c : Combination},
    (c.rename ρ).IsRegular t ↔ c.IsRegular (t.renamed ρ)
  | .mk c ts => by
    rw [Combination.rename, Combination.IsRegular, Combination.termsRegular_sorted,
      Combination.termsRegular_rename_iff, Combination.IsRegular]

theorem Combination.termsRegular_rename_iff : ∀ {ts : List Product},
    Combination.TermsRegular t (Combination.renameTerms ρ ts) ↔ Combination.TermsRegular (t.renamed ρ) ts
  | [] => .rfl
  | s :: ts => by
    rw [Combination.renameTerms, Combination.TermsRegular, Product.isRegular_rename_iff,
      Combination.termsRegular_rename_iff, Combination.TermsRegular]

theorem Product.isRegular_rename_iff : ∀ {s : Product}, (s.rename ρ).IsRegular t ↔ s.IsRegular (t.renamed ρ)
  | .mk c ps => by
    rw [Product.rename, Product.IsRegular, Product.powersRegular_sorted,
      Product.powersRegular_rename_iff, Product.IsRegular]

theorem Product.powersRegular_rename_iff : ∀ {ps : List Power},
    Product.PowersRegular t (Product.renamePowers ρ ps) ↔ Product.PowersRegular (t.renamed ρ) ps
  | [] => .rfl
  | p :: ps => by
    rw [Product.renamePowers, Product.PowersRegular, Power.isRegular_rename_iff,
      Product.powersRegular_rename_iff, Product.PowersRegular]

theorem Power.isRegular_rename_iff : ∀ {p : Power}, (p.rename ρ).IsRegular t ↔ p.IsRegular (t.renamed ρ)
  | .mk b k => by
    rw [Power.rename, Power.IsRegular, Base.isRegular_rename_iff, Base.value_rename, Power.IsRegular]

theorem Base.isRegular_rename_iff : ∀ {b : Base}, (b.rename ρ).IsRegular t ↔ b.IsRegular (t.renamed ρ)
  | .atom _ => .rfl
  | .sum c => by rw [Base.rename, Base.IsRegular, Combination.isRegular_rename_iff, Base.IsRegular]

end

theorem Combination.represents_rename_iff {c : Combination} {x : K} :
    (c.rename ρ).Represents t x ↔ c.Represents (t.renamed ρ) x := by
  rw [Represents, Represents, isRegular_rename_iff, value_rename]

end Values

/-- Formal values are faithful by any names. -/
theorem AtomValues.isFaithful_renamed_formal (hρ : Function.Injective ρ) {names : List String}
    (hnodup : names.Nodup) : (formal.renamed ρ).IsFaithful names := by
  obtain ⟨σ, hσ⟩ := hρ.hasLeftInverse
  intro p hp
  refine vanishes_of_eval_atoms (fun i => (atomAt names i).rename ρ) (fun a => (a.rename σ).index names)
    rfl (fun i hi => ?_) ?_
  · rw [Atom.rename_rename hσ, index_atomAt hnodup hi]
  · rw [← hp]
    congr 1
    funext i
    exact (unknowns_eq (formal.renamed ρ) names i).symm

theorem AtomValues.isFaithful_formal {names : List String} (hnodup : names.Nodup) :
    formal.IsFaithful names :=
  fun _ => vanishes_of_eval_formal hnodup

/-! ### Forms of renamed expressions -/

/-- A variable by another name. -/
def LeafValue.rename (ρ : String → String) : LeafValue → LeafValue
  | unknown name => unknown (ρ name)
  | value => value

namespace LeafValue

theorem isOrdered_power (q : Rat) (a : Atom) (k : Int) :
    (Product.mk (.finite q) [.mk (.atom a) k]).IsOrdered :=
  Product.isOrdered_mk.2 (Power.allOrdered_singleton trivial)

theorem isOrdered_combination (v : LeafValue) : v.combination.IsOrdered := by
  cases v with
  | number q => exact Combination.isOrdered_iff.2 Product.allOrdered_nil
  | constant c => exact Combination.isOrdered_ofProduct (isOrdered_power _ _ _)
  | unknown name => exact Combination.isOrdered_ofProduct (isOrdered_power 1 (.unknown name) 1)

theorem rename_combination (hρ : Function.Injective ρ) (v : LeafValue) :
    v.combination.rename ρ = (v.rename ρ).combination := by
  have hpower : ∀ (q : Rat) (a : Atom) (k : Int),
      (Combination.ofProduct (.mk (.finite q) [.mk (.atom a) k])).rename ρ =
        Combination.ofProduct (.mk (.finite q) [.mk (.atom (a.rename ρ)) k]) := by
    intro q a k
    rw [Combination.rename_ofProduct hρ (isOrdered_power q a k), Product.rename_mk,
      Power.renameAll_singleton, Power.rename, Base.rename]
  cases v with
  | number q => exact Combination.rename_number _
  | constant c =>
    have hconstant := hpower c.parts.1 c.parts.2.1 c.parts.2.2
    rwa [Atom.rename_of_isUnknown_eq_false (isUnknown_parts c)] at hconstant
  | unknown name => exact hpower 1 (.unknown name) 1

end LeafValue

theorem Operand.read_rename (hρ : IsRenaming ρ) (x : Operand) :
    (x.rename ρ).read = x.read.map (LeafValue.rename ρ) := by
  by_cases hx : x.isVariable = true
  · have hx' : (x.rename ρ).isVariable = true := by rw [isVariable_rename hρ, hx]
    rw [read_of_isVariable hx, read_of_isVariable hx', text_rename hρ, if_pos hx]
    rfl
  · rw [rename_of_isVariable_eq_false (Bool.not_eq_true _ ▸ hx)]
    rcases hread : x.read with cause | (q | c | name)
    · rfl
    · rfl
    · rfl
    · have hmem := mem_variables_of_read hread
      rw [Expr.variables, if_neg hx] at hmem
      exact absurd hmem List.not_mem_nil

theorem Operator.isOrdered_combine? {op : Operator} {c d r : Combination} (hc : c.IsOrdered)
    (hd : d.IsOrdered) (h : op.combine? (some c) (some d) = some r) : r.IsOrdered := by
  cases op with
  | mul => exact hc.mul? hd h
  | div => exact hc.mul? hd.inverse h
  | add => exact hc.add? hd h
  | sub => exact hc.add? (hd.scale _) h

theorem Operator.combine?_rename (hρ : Function.Injective ρ) (op : Operator) {c d : Combination}
    (hc : c.IsOrdered) (hd : d.IsOrdered) : op.combine? (some (c.rename ρ)) (some (d.rename ρ)) =
      (op.combine? (some c) (some d)).map (Combination.rename ρ) := by
  cases op with
  | mul => exact Combination.rename_mul? hρ hc hd
  | div =>
    have hmul := Combination.rename_mul? hρ hc hd.inverse
    rwa [Combination.rename_inverse hρ hd] at hmul
  | add => exact Combination.rename_add? hρ hc hd
  | sub =>
    have hadd := Combination.rename_add? hρ hc (hd.scale (-1))
    rwa [Combination.rename_scale hρ hd] at hadd

namespace Expr

/-- Gathering gives ordered forms. -/
theorem isOrdered_combination {e : Expr} {c : Combination} (h : e.combination = .ok (some c)) :
    c.IsOrdered := by
  induction e generalizing c with
  | leaf operand =>
    obtain ⟨v, -, h⟩ := exists_of_bind_eq_ok h
    obtain rfl : v.combination = c := Option.some.inj (Except.ok.inj h)
    exact v.isOrdered_combination
  | node lhs op rhs ihl ihr =>
    obtain ⟨l, hl, h⟩ := exists_of_bind_eq_ok h
    obtain ⟨r, hr, h⟩ := exists_of_bind_eq_ok h
    replace h := Except.ok.inj h
    rcases l with _ | l
    · cases h
    rcases r with _ | r
    · cases h
    exact Operator.isOrdered_combine? (ihl hl) (ihr hr) h

/-- **The form of a renamed expression is the renamed form of the expression.** -/
theorem combination_rename (hρ : IsRenaming ρ) (e : Expr) :
    (e.rename ρ).combination = e.combination.map (Option.map (Combination.rename ρ)) := by
  induction e with
  | leaf operand =>
    rw [rename, combination, combination, Operand.read_rename hρ]
    rcases operand.read with cause | v
    · rfl
    · exact congrArg (fun c => Except.ok (some c)) (v.rename_combination hρ.injective).symm
  | node lhs op rhs ihl ihr =>
    rw [rename_node, combination, combination, ihl, ihr]
    rcases hl : lhs.combination with cause | l
    · rfl
    rcases hr : rhs.combination with cause | r
    · rfl
    refine congrArg Except.ok ?_
    rcases l with _ | l
    · rfl
    rcases r with _ | r
    · rfl
    exact op.combine?_rename hρ.injective (isOrdered_combination hl) (isOrdered_combination hr)

/-- **Renaming does not change what is found to be zero.** -/
theorem isZero_rename (hρ : IsRenaming ρ) (e : Expr) : (e.rename ρ).isZero = e.isZero := by
  have hcomb := combination_rename hρ e
  rcases hvalue : e.combination with cause | value
  · rw [hvalue] at hcomb
    rw [isZero, isZero, hcomb, hvalue]
    rfl
  · rw [hvalue] at hcomb
    have hfaithful := AtomValues.isFaithful_renamed_formal hρ.injective (nodup_sortedNames e.variables)
    obtain ⟨b, hb, hiff⟩ := exists_isZero_iff_represents hfaithful hvalue
    obtain ⟨b', hb', hiff'⟩ := exists_isZero_iff_represents
      (AtomValues.isFaithful_formal (nodup_sortedNames _)) hcomb
    have hsame : b' = true ↔ b = true := by
      rw [hiff, hiff']
      rcases value with _ | c
      · simp
      · simp [Combination.represents_rename_iff]
    rw [hb, hb', Bool.eq_iff_iff.2 hsame]

end Expr

end LinearRelations
