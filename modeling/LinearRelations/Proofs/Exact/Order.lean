import LinearRelations.Proofs.Exact.Gathered

/-!
# The order of forms

Comparing forms is a linear order, so a list that rises in it is determined by its members, and
adding or multiplying two rising lists depends on nothing but the members of the two.

* `Std.TransCmp`, `Std.LawfulEqCmp`: the comparisons of bases and of lists of powers are orders;
* `Rising`, `sorted`: lists in strictly rising order, and putting a list in order;
* `gather?`: two rising lists made one, like members put together;
* `gather?_sorted_map`: a map that respects what is alike carries over to lists made one.
-/

namespace LinearRelations

/-! ### Comparing forms -/

/-- Of two comparisons one after the other, both are transitive if the first finds only equals to be
equal. -/
theorem then_lt_trans {α : Type} {cmp : α → α → Ordering} {a b c : α} {o₁ o₂ o₃ : Ordering}
    (heq : ∀ {x y}, cmp x y = .eq → x = y) (hlt : cmp a b = .lt → cmp b c = .lt → cmp a c = .lt)
    (ho : o₁ = .lt → o₂ = .lt → o₃ = .lt) (h₁ : (cmp a b).then o₁ = .lt)
    (h₂ : (cmp b c).then o₂ = .lt) : (cmp a c).then o₃ = .lt := by
  rw [Ordering.then_eq_lt] at h₁ h₂ ⊢
  rcases h₁ with h₁ | ⟨hab, h₁⟩
  · rcases h₂ with h₂ | ⟨hbc, -⟩
    · exact .inl (hlt h₁ h₂)
    · exact .inl (heq hbc ▸ h₁)
  · obtain rfl := heq hab
    rcases h₂ with h₂ | ⟨hbc, h₂⟩
    · exact .inl h₂
    · exact .inr ⟨hbc, ho h₁ h₂⟩

/-- A comparison that is antisymmetric, finds only equals to be equal and is transitive orders. -/
theorem transCmp_of_lt_trans {α : Type} {cmp : α → α → Ordering} (hswap : ∀ a b, cmp a b = (cmp b a).swap)
    (heq : ∀ {a b}, cmp a b = .eq → a = b)
    (hlt : ∀ {a b c}, cmp a b = .lt → cmp b c = .lt → cmp a c = .lt) : Std.TransCmp cmp where
  eq_swap := hswap _ _
  isLE_trans {a b c} h₁ h₂ := by
    rw [Ordering.isLE_iff_eq_lt_or_eq_eq] at h₁ h₂ ⊢
    rcases h₁ with h₁ | h₁
    · rcases h₂ with h₂ | h₂
      · exact .inl (hlt h₁ h₂)
      · exact .inl (heq h₂ ▸ h₁)
    · exact heq h₁ ▸ h₂

theorem Scale.compare_swap : ∀ c d : Scale, c.compare d = (d.compare c).swap
  | .finite p, .finite q => by
    simp only [Scale.compare]
    rcases lt_trichotomy p q with h | rfl | h
    · rw [if_pos h, if_neg h.asymm, if_pos h]
      rfl
    · rw [if_neg (lt_irrefl p), if_neg (lt_irrefl p)]
      rfl
    · rw [if_neg h.asymm, if_pos h, if_pos h]
      rfl
  | .finite _, .unbounded => rfl
  | .unbounded, .finite _ => rfl
  | .unbounded, .unbounded => rfl

theorem Scale.compare_eq_lt_iff {p q : Rat} : (finite p).compare (finite q) = .lt ↔ p < q := by
  rw [Scale.compare]
  by_cases h : p < q
  · simp [h]
  · rw [if_neg h]
    split <;> simp [h]

theorem Scale.compare_lt_trans : ∀ {c d e : Scale}, c.compare d = .lt → d.compare e = .lt → c.compare e = .lt
  | .finite _, .finite _, .finite _, h₁, h₂ =>
    compare_eq_lt_iff.2 ((compare_eq_lt_iff.1 h₁).trans (compare_eq_lt_iff.1 h₂))
  | .finite _, .finite _, .unbounded, _, _ => rfl
  | .finite _, .unbounded, .finite _, _, h₂ => by cases h₂
  | .finite _, .unbounded, .unbounded, _, h₂ => by cases h₂
  | .unbounded, .finite _, _, h₁, _ => by cases h₁
  | .unbounded, .unbounded, _, h₁, _ => by cases h₁

theorem Atom.compare_swap (a b : Atom) : a.compare b = (b.compare a).swap := by
  rw [Atom.compare, Atom.compare, Ordering.swap_then, ← Std.OrientedOrd.eq_swap, ← Std.OrientedOrd.eq_swap]

theorem Atom.compare_lt_trans {a b c : Atom} (h₁ : a.compare b = .lt) (h₂ : b.compare c = .lt) :
    a.compare c = .lt :=
  then_lt_trans compare_eq_iff_eq.1 Std.TransCmp.lt_trans Std.TransCmp.lt_trans h₁ h₂

mutual

theorem Combination.compare_swap : ∀ c d : Combination, c.compare d = (d.compare c).swap
  | .mk c ts, .mk d us => by
    rw [Combination.compare, Combination.compare, Ordering.swap_then, ← Scale.compare_swap,
      ← Combination.compareTerms_swap]

theorem Combination.compareTerms_swap :
    ∀ ts us : List Product, Combination.compareTerms ts us = (Combination.compareTerms us ts).swap
  | [], [] => by simp [Combination.compareTerms]
  | [], _ :: _ => by simp [Combination.compareTerms]
  | _ :: _, [] => by simp [Combination.compareTerms]
  | t :: ts, u :: us => by
    rw [Combination.compareTerms, Combination.compareTerms, Ordering.swap_then, ← Product.compare_swap,
      ← Combination.compareTerms_swap]

theorem Product.compare_swap : ∀ s t : Product, s.compare t = (t.compare s).swap
  | .mk c ps, .mk d qs => by
    rw [Product.compare, Product.compare, Ordering.swap_then, ← Product.comparePowers_swap,
      ← Scale.compare_swap]

theorem Product.comparePowers_swap :
    ∀ ps qs : List Power, Product.comparePowers ps qs = (Product.comparePowers qs ps).swap
  | [], [] => by simp [Product.comparePowers]
  | [], _ :: _ => by simp [Product.comparePowers]
  | _ :: _, [] => by simp [Product.comparePowers]
  | p :: ps, q :: qs => by
    rw [Product.comparePowers, Product.comparePowers, Ordering.swap_then, ← Power.compare_swap,
      ← Product.comparePowers_swap]

theorem Power.compare_swap : ∀ p q : Power, p.compare q = (q.compare p).swap
  | .mk b k, .mk c l => by
    rw [Power.compare, Power.compare, Ordering.swap_then, ← Base.compare_swap, ← Std.OrientedOrd.eq_swap]

theorem Base.compare_swap : ∀ b c : Base, b.compare c = (c.compare b).swap
  | .atom a, .atom b => by
    rw [Base.compare, Base.compare, ← Atom.compare_swap]
  | .atom _, .sum _ => by simp [Base.compare]
  | .sum _, .atom _ => by simp [Base.compare]
  | .sum c, .sum d => by
    rw [Base.compare, Base.compare, ← Combination.compare_swap]

end

mutual

theorem Combination.compare_lt_trans : ∀ {c d e : Combination}, c.compare d = .lt → d.compare e = .lt →
    c.compare e = .lt
  | .mk _ _, .mk _ _, .mk _ _, h₁, h₂ => by
    rw [Combination.compare] at h₁ h₂ ⊢
    exact then_lt_trans Scale.eq_of_compare Scale.compare_lt_trans Combination.compareTerms_lt_trans h₁ h₂

theorem Combination.compareTerms_lt_trans : ∀ {ts us vs : List Product},
    Combination.compareTerms ts us = .lt → Combination.compareTerms us vs = .lt →
    Combination.compareTerms ts vs = .lt
  | [], [], _, h₁, _ => by simp [Combination.compareTerms] at h₁
  | _ :: _, [], _, h₁, _ => by simp [Combination.compareTerms] at h₁
  | _, _ :: _, [], _, h₂ => by simp [Combination.compareTerms] at h₂
  | [], _ :: _, _ :: _, _, _ => by rw [Combination.compareTerms]
  | _ :: _, _ :: _, _ :: _, h₁, h₂ => by
    rw [Combination.compareTerms] at h₁ h₂ ⊢
    exact then_lt_trans Product.eq_of_compare Product.compare_lt_trans Combination.compareTerms_lt_trans h₁ h₂

theorem Product.compare_lt_trans : ∀ {s t u : Product}, s.compare t = .lt → t.compare u = .lt →
    s.compare u = .lt
  | .mk _ _, .mk _ _, .mk _ _, h₁, h₂ => by
    rw [Product.compare] at h₁ h₂ ⊢
    exact then_lt_trans Product.eq_of_comparePowers Product.comparePowers_lt_trans Scale.compare_lt_trans h₁ h₂

theorem Product.comparePowers_lt_trans : ∀ {ps qs rs : List Power},
    Product.comparePowers ps qs = .lt → Product.comparePowers qs rs = .lt →
    Product.comparePowers ps rs = .lt
  | [], [], _, h₁, _ => by simp [Product.comparePowers] at h₁
  | _ :: _, [], _, h₁, _ => by simp [Product.comparePowers] at h₁
  | _, _ :: _, [], _, h₂ => by simp [Product.comparePowers] at h₂
  | [], _ :: _, _ :: _, _, _ => by rw [Product.comparePowers]
  | _ :: _, _ :: _, _ :: _, h₁, h₂ => by
    rw [Product.comparePowers] at h₁ h₂ ⊢
    exact then_lt_trans Power.eq_of_compare Power.compare_lt_trans Product.comparePowers_lt_trans h₁ h₂

theorem Power.compare_lt_trans : ∀ {p q r : Power}, p.compare q = .lt → q.compare r = .lt →
    p.compare r = .lt
  | .mk _ _, .mk _ _, .mk _ _, h₁, h₂ => by
    rw [Power.compare] at h₁ h₂ ⊢
    exact then_lt_trans Base.eq_of_compare Base.compare_lt_trans Std.TransCmp.lt_trans h₁ h₂

theorem Base.compare_lt_trans : ∀ {b c d : Base}, b.compare c = .lt → c.compare d = .lt →
    b.compare d = .lt
  | .atom _, .atom _, .atom _, h₁, h₂ => by
    rw [Base.compare] at h₁ h₂ ⊢
    exact Atom.compare_lt_trans h₁ h₂
  | .sum _, .sum _, .sum _, h₁, h₂ => by
    rw [Base.compare] at h₁ h₂ ⊢
    exact Combination.compare_lt_trans h₁ h₂
  | .atom _, _, .sum _, _, _ => by rw [Base.compare]
  | .sum _, .atom _, _, h₁, _ => by simp [Base.compare] at h₁
  | _, .sum _, .atom _, _, h₂ => by simp [Base.compare] at h₂

end

instance transCmp_base : Std.TransCmp Base.compare :=
  transCmp_of_lt_trans Base.compare_swap Base.eq_of_compare Base.compare_lt_trans

instance transCmp_powers : Std.TransCmp Product.comparePowers :=
  transCmp_of_lt_trans Product.comparePowers_swap Product.eq_of_comparePowers Product.comparePowers_lt_trans

/-! ### Comparing terms and factors -/

/-- What is ordered by a key is ordered. -/
theorem transCmp_key {α β : Type} (cmp : β → β → Ordering) [Std.TransCmp cmp] (key : α → β) :
    Std.TransCmp fun a b => cmp (key a) (key b) where
  eq_swap {a b} := Std.OrientedCmp.eq_swap (a := key a) (b := key b)
  isLE_trans {a b c} := Std.TransCmp.isLE_trans (a := key a) (b := key b) (c := key c)

/-- The order of factors: by base. -/
def Power.compareBase (p q : Power) : Ordering := p.base.compare q.base

instance transCmp_compareBase : Std.TransCmp Power.compareBase := transCmp_key _ Power.base

instance transCmp_compareKind : Std.TransCmp Product.compareKind :=
  have : Std.TransCmp fun s t : Product => Product.comparePowers s.powers t.powers :=
    transCmp_key _ Product.powers
  have : Std.TransCmp fun s t : Product =>
      Ord.compare s.coefficient.isUnbounded.toNat t.coefficient.isUnbounded.toNat :=
    transCmp_key Ord.compare fun s : Product => s.coefficient.isUnbounded.toNat
  inferInstanceAs (Std.TransCmp (compareLex (fun s t : Product => Product.comparePowers s.powers t.powers)
    fun s t : Product => Ord.compare s.coefficient.isUnbounded.toNat t.coefficient.isUnbounded.toNat))

theorem Power.compareBase_eq_iff {p q : Power} : p.compareBase q = .eq ↔ p.base = q.base := by
  refine ⟨Base.eq_of_compare, fun h => ?_⟩
  rw [compareBase, h]
  exact Std.ReflCmp.compare_self

theorem Product.compareKind_eq_iff {s t : Product} : s.compareKind t = .eq ↔
    s.powers = t.powers ∧ s.coefficient.isUnbounded = t.coefficient.isUnbounded := by
  rw [compareKind, Ordering.then_eq_eq, compare_eq_iff_eq]
  have hflag : ∀ b c : Bool, b.toNat = c.toNat ↔ b = c := by decide
  refine and_congr ⟨eq_of_comparePowers, fun h => ?_⟩ (hflag _ _)
  rw [h]
  exact Std.ReflCmp.compare_self

/-! ### Lists in rising order -/

section Rising

variable {α : Type} {cmp : α → α → Ordering} {xs ys : List α}

variable (cmp) in
/-- A list in strictly rising order. -/
def Rising (xs : List α) : Prop := xs.Pairwise fun a b => cmp a b = .lt

variable (cmp) in
/-- A rising list whose members all have a property. -/
structure Listed (P : α → Prop) (xs : List α) : Prop where
  rising : Rising cmp xs
  all : ∀ x ∈ xs, P x

variable (cmp) in
/-- A list put in rising order. -/
def sorted (xs : List α) : List α := xs.mergeSort fun a b => (cmp a b).isLE

theorem sorted_perm (xs : List α) : (sorted cmp xs).Perm xs := List.mergeSort_perm _ _

@[simp] theorem mem_sorted {a : α} : a ∈ sorted cmp xs ↔ a ∈ xs := (sorted_perm xs).mem_iff

theorem Rising.tail {a : α} (h : Rising cmp (a :: xs)) : Rising cmp xs := List.Pairwise.of_cons h

theorem Rising.filter (hx : Rising cmp xs) (test : α → Bool) : Rising cmp (xs.filter test) :=
  hx.sublist List.filter_sublist

theorem Rising.map (hx : Rising cmp xs) {g : α → α} (hg : ∀ a b, cmp (g a) (g b) = cmp a b) :
    Rising cmp (xs.map g) :=
  List.pairwise_map.2 (hx.imp fun h => (hg _ _).trans h)

theorem unlike_of_lt {a b : α} (h : cmp a b = .lt) : cmp a b ≠ .eq := by
  rw [h]
  exact nofun

/-- No two members of a rising list are alike. -/
theorem Rising.pairwise_ne (h : Rising cmp xs) : xs.Pairwise fun a b => cmp a b ≠ .eq :=
  h.imp unlike_of_lt

variable [Std.TransCmp cmp]

theorem unlike_symm {a b : α} (h : cmp a b ≠ .eq) : cmp b a ≠ .eq := fun heq =>
  h (Std.OrientedCmp.eq_symm heq)

theorem Rising.nodup (h : Rising cmp xs) : xs.Nodup :=
  h.pairwise_ne.imp fun hne heq => hne (by rw [heq]; exact Std.ReflCmp.compare_self)

/-- Rising lists with the same members are equal. -/
theorem Rising.eq_of_perm (hx : Rising cmp xs) (hy : Rising cmp ys) (h : xs.Perm ys) : xs = ys := by
  refine List.Perm.eq_of_pairwise (fun a b _ _ (hab : cmp a b = .lt) hba => ?_) hx hy h
  exact absurd hba (Std.OrientedCmp.not_lt_of_lt hab)

theorem Rising.ext (hx : Rising cmp xs) (hy : Rising cmp ys) (h : ∀ a, a ∈ xs ↔ a ∈ ys) : xs = ys :=
  hx.eq_of_perm hy ((List.perm_ext_iff_of_nodup hx.nodup hy.nodup).2 h)

theorem pairwise_sorted (xs : List α) : (sorted cmp xs).Pairwise fun a b => (cmp a b).isLE = true := by
  refine List.pairwise_mergeSort (fun _ _ _ => Std.TransCmp.isLE_trans) (fun a b => ?_) xs
  rw [Bool.or_eq_true]
  by_cases h : (cmp a b).isLE = true
  · exact .inl h
  · exact .inr (Std.OrientedCmp.isGE_iff_isLE.1 (by cases hab : cmp a b <;> simp_all))

/-- A list of which no two members are alike rises when it is put in order. -/
theorem rising_sorted (h : xs.Pairwise fun a b => cmp a b ≠ .eq) : Rising cmp (sorted cmp xs) := by
  have hne : (sorted cmp xs).Pairwise fun a b => cmp a b ≠ .eq :=
    (sorted_perm xs).symm.pairwise h unlike_symm
  refine (pairwise_sorted xs).imp₂ (fun a b hle hne => ?_) hne
  cases hab : cmp a b <;> simp_all

/-- The members of a rising list are put in the order of the list. -/
theorem Rising.sorted_eq_of_perm (hy : Rising cmp ys) (h : xs.Perm ys) : sorted cmp xs = ys :=
  (rising_sorted (h.symm.pairwise hy.pairwise_ne unlike_symm)).eq_of_perm hy ((sorted_perm xs).trans h)

/-- A list whose members are mapped and mapped back is put in its order again. -/
theorem Rising.sorted_map_sorted_map (hx : Rising cmp xs) {f g : α → α} (h : ∀ x ∈ xs, g (f x) = x) :
    sorted cmp ((sorted cmp (xs.map f)).map g) = xs := by
  have hmap : (xs.map f).map g = xs := by
    rw [List.map_map]
    exact (List.map_congr_left h).trans (List.map_id xs)
  refine hx.sorted_eq_of_perm (((sorted_perm _).map g).trans ?_)
  rw [hmap]

/-- A map that keeps the order may be taken before or after a list is put in order. -/
theorem Rising.sorted_map_map {f g : α → α} (h : Rising cmp (sorted cmp (xs.map f)))
    (hg : ∀ a b, cmp (g a) (g b) = cmp a b) (hfg : ∀ x ∈ xs, f (g x) = g (f x)) :
    sorted cmp ((xs.map g).map f) = (sorted cmp (xs.map f)).map g := by
  have hmap : (xs.map g).map f = (xs.map f).map g := by
    rw [List.map_map, List.map_map]
    exact List.map_congr_left hfg
  refine (h.map hg).sorted_eq_of_perm ?_
  rw [hmap]
  exact ((sorted_perm _).map g).symm

/-- Members may be left out before or after a list is put in order. -/
theorem Rising.sorted_map_filter {f : α → α} {test : α → Bool} (h : Rising cmp (sorted cmp (xs.map f)))
    (htest : ∀ x ∈ xs, test (f x) = test x) :
    sorted cmp ((xs.filter test).map f) = (sorted cmp (xs.map f)).filter test := by
  have hfilter : (xs.filter test).map f = (xs.map f).filter test := by
    rw [List.filter_map]
    exact congrArg _ (List.filter_congr fun x hx => (htest x hx).symm)
  refine (h.filter test).sorted_eq_of_perm ?_
  rw [hfilter]
  exact ((sorted_perm _).filter test).symm

end Rising

/-! ### Rising lists made one -/

/-- Makes one of two rising lists. What is alike is put together, which may leave nothing, or fail. -/
def gather? {α : Type} (cmp : α → α → Ordering) (combine : α → α → Option (Option α)) :
    List α → List α → Option (List α)
  | [], ys => some ys
  | xs, [] => some xs
  | x :: xs, y :: ys =>
    match cmp x y with
    | .lt => (gather? cmp combine xs (y :: ys)).map (x :: ·)
    | .gt => (gather? cmp combine (x :: xs) ys).map (y :: ·)
    | .eq => (combine x y).bind fun z => (gather? cmp combine xs ys).map (z.toList ++ ·)
termination_by xs ys => xs.length + ys.length

section Gather

variable {α : Type} {cmp : α → α → Ordering} {combine : α → α → Option (Option α)}
  {xs ys rs : List α}

variable (cmp combine) in
/-- A member of two lists made one: a member of either that the other has nothing like, or what two
members that are alike leave. -/
def Gathered (xs ys : List α) (r : α) : Prop :=
  (r ∈ xs ∧ ∀ y ∈ ys, cmp r y ≠ .eq) ∨ (r ∈ ys ∧ ∀ x ∈ xs, cmp x r ≠ .eq) ∨
    ∃ x ∈ xs, ∃ y ∈ ys, cmp x y = .eq ∧ combine x y = some (some r)

variable (cmp combine) in
/-- Whether two members are alike and cannot be put together. -/
def Clashes (xs ys : List α) : Prop := ∃ x ∈ xs, ∃ y ∈ ys, cmp x y = .eq ∧ combine x y = none

variable (cmp combine) in
/-- What is put together stays like it was. -/
def KeepsKind : Prop := ∀ x y z, cmp x y = .eq → combine x y = some (some z) → cmp z x = .eq

theorem clashes_cons_left {x : α} (h : ∀ y ∈ ys, cmp x y ≠ .eq) :
    Clashes cmp combine (x :: xs) ys ↔ Clashes cmp combine xs ys := by
  grind [Clashes]

theorem clashes_cons_right {y : α} (h : ∀ x ∈ xs, cmp x y ≠ .eq) :
    Clashes cmp combine xs (y :: ys) ↔ Clashes cmp combine xs ys := by
  grind [Clashes]

theorem clashes_cons {x y : α} (heq : cmp x y = .eq) (hx : ∀ x' ∈ xs, cmp x' y ≠ .eq)
    (hy : ∀ y' ∈ ys, cmp x y' ≠ .eq) :
    Clashes cmp combine (x :: xs) (y :: ys) ↔ combine x y = none ∨ Clashes cmp combine xs ys := by
  grind [Clashes]

theorem gathered_cons_left {x r : α} (h : ∀ y ∈ ys, cmp x y ≠ .eq) :
    Gathered cmp combine (x :: xs) ys r ↔ r = x ∨ Gathered cmp combine xs ys r := by
  grind [Gathered]

theorem gathered_cons_right {y r : α} (h : ∀ x ∈ xs, cmp x y ≠ .eq) :
    Gathered cmp combine xs (y :: ys) r ↔ r = y ∨ Gathered cmp combine xs ys r := by
  grind [Gathered]

theorem gathered_cons {x y r : α} (heq : cmp x y = .eq) (hx : ∀ x' ∈ xs, cmp x' y ≠ .eq)
    (hy : ∀ y' ∈ ys, cmp x y' ≠ .eq) : Gathered cmp combine (x :: xs) (y :: ys) r ↔
      combine x y = some (some r) ∨ Gathered cmp combine xs ys r := by
  grind [Gathered]

/-- Whatever has a property that combining keeps makes only what has it. -/
theorem Gathered.property {P : α → Prop} (hclosed : ∀ a b c, P a → P b → combine a b = some (some c) → P c)
    {r : α} (h : Gathered cmp combine xs ys r) (hxs : ∀ x ∈ xs, P x) (hys : ∀ y ∈ ys, P y) : P r := by
  rcases h with ⟨hr, -⟩ | ⟨hr, -⟩ | ⟨x, hx, y, hy, -, hr⟩
  · exact hxs r hr
  · exact hys r hr
  · exact hclosed x y r (hxs x hx) (hys y hy) hr

/-! ### Maps that carry over -/

variable (cmp combine) in
/-- A map carries over what is alike, and what that makes, between forms with a property. -/
structure Carries (P : α → Prop) (f : α → α) : Prop where
  closed : ∀ a b c, P a → P b → combine a b = some (some c) → P c
  alike_iff : ∀ {a b}, P a → P b → (cmp (f a) (f b) = .eq ↔ cmp a b = .eq)
  combine_eq : ∀ {a b}, P a → P b → cmp a b = .eq → combine (f a) (f b) = (combine a b).map (Option.map f)

namespace Carries

variable {P : α → Prop} {f : α → α} (hf : Carries cmp combine P f)

include hf

variable (hxs : ∀ x ∈ xs, P x) (hys : ∀ y ∈ ys, P y)

include hxs hys

theorem clashes_map_iff : Clashes cmp combine (sorted cmp (xs.map f)) (sorted cmp (ys.map f)) ↔
    Clashes cmp combine xs ys := by
  simp only [Clashes, mem_sorted, List.mem_map, exists_exists_and_eq_and]
  refine exists_congr fun x => and_congr_right fun hx => exists_congr fun y => and_congr_right fun hy => ?_
  rw [hf.alike_iff (hxs x hx) (hys y hy)]
  refine and_congr_right fun heq => ?_
  rw [hf.combine_eq (hxs x hx) (hys y hy) heq, Option.map_eq_none_iff]

theorem gathered_map_iff {r : α} : Gathered cmp combine (sorted cmp (xs.map f)) (sorted cmp (ys.map f)) r ↔
    ∃ r', Gathered cmp combine xs ys r' ∧ f r' = r := by
  constructor
  · rintro (⟨hr, hne⟩ | ⟨hr, hne⟩ | ⟨x', hx', y', hy', heq, hr⟩)
    · obtain ⟨x, hx, rfl⟩ := List.mem_map.1 (mem_sorted.1 hr)
      refine ⟨x, .inl ⟨hx, fun y hy heq => ?_⟩, rfl⟩
      exact hne (f y) (mem_sorted.2 (List.mem_map_of_mem hy)) ((hf.alike_iff (hxs x hx) (hys y hy)).2 heq)
    · obtain ⟨y, hy, rfl⟩ := List.mem_map.1 (mem_sorted.1 hr)
      refine ⟨y, .inr (.inl ⟨hy, fun x hx heq => ?_⟩), rfl⟩
      exact hne (f x) (mem_sorted.2 (List.mem_map_of_mem hx)) ((hf.alike_iff (hxs x hx) (hys y hy)).2 heq)
    · obtain ⟨x, hx, rfl⟩ := List.mem_map.1 (mem_sorted.1 hx')
      obtain ⟨y, hy, rfl⟩ := List.mem_map.1 (mem_sorted.1 hy')
      rw [hf.alike_iff (hxs x hx) (hys y hy)] at heq
      rw [hf.combine_eq (hxs x hx) (hys y hy) heq] at hr
      obtain ⟨z, hz, hr⟩ := Option.map_eq_some_iff.1 hr
      obtain ⟨r', rfl, rfl⟩ := Option.map_eq_some_iff.1 hr
      exact ⟨r', .inr (.inr ⟨x, hx, y, hy, heq, hz⟩), rfl⟩
  · rintro ⟨r', ⟨hr, hne⟩ | ⟨hr, hne⟩ | ⟨x, hx, y, hy, heq, hr⟩, rfl⟩
    · refine .inl ⟨mem_sorted.2 (List.mem_map_of_mem hr), fun y' hy' heq => ?_⟩
      obtain ⟨y, hy, rfl⟩ := List.mem_map.1 (mem_sorted.1 hy')
      exact hne y hy ((hf.alike_iff (hxs r' hr) (hys y hy)).1 heq)
    · refine .inr (.inl ⟨mem_sorted.2 (List.mem_map_of_mem hr), fun x' hx' heq => ?_⟩)
      obtain ⟨x, hx, rfl⟩ := List.mem_map.1 (mem_sorted.1 hx')
      exact hne x hx ((hf.alike_iff (hxs x hx) (hys r' hr)).1 heq)
    · refine .inr (.inr ⟨f x, mem_sorted.2 (List.mem_map_of_mem hx), f y,
        mem_sorted.2 (List.mem_map_of_mem hy), (hf.alike_iff (hxs x hx) (hys y hy)).2 heq, ?_⟩)
      rw [hf.combine_eq (hxs x hx) (hys y hy) heq, hr]
      rfl

end Carries

/-! ### The lists made one -/

variable [Std.TransCmp cmp]

theorem Rising.lt_of_lt {a b : α} (h : Rising cmp (a :: xs)) (hba : cmp b a = .lt) {x : α}
    (hx : x ∈ a :: xs) : cmp b x = .lt := by
  rcases List.mem_cons.1 hx with rfl | hx
  · exact hba
  · exact Std.TransCmp.lt_trans hba ((List.pairwise_cons.1 h).1 x hx)

/-- What is below all members of both lists is below what they make. -/
theorem Gathered.lt (hkind : KeepsKind cmp combine) {a r : α} (h : Gathered cmp combine xs ys r)
    (hx : ∀ x ∈ xs, cmp a x = .lt) (hy : ∀ y ∈ ys, cmp a y = .lt) : cmp a r = .lt := by
  rcases h with ⟨hr, -⟩ | ⟨hr, -⟩ | ⟨x, hxs, y, -, heq, hr⟩
  · exact hx r hr
  · exact hy r hr
  · rw [Std.TransCmp.congr_right (hkind x y r heq hr)]
    exact hx x hxs

/-- Rising lists are made one with the members that their members make, unless two of these clash. -/
theorem gather?_spec (hkind : KeepsKind cmp combine) (hx : Rising cmp xs) (hy : Rising cmp ys) :
    match gather? cmp combine xs ys with
    | none => Clashes cmp combine xs ys
    | some rs => ¬ Clashes cmp combine xs ys ∧ Rising cmp rs ∧ ∀ r, r ∈ rs ↔ Gathered cmp combine xs ys r := by
  fun_induction gather? cmp combine xs ys with
  | case1 ys => simp [Clashes, Gathered, hy]
  | case2 xs _ => simp [Clashes, Gathered, hx]
  | case3 x xs y ys hlt ih =>
    have hbelow : ∀ y' ∈ y :: ys, cmp x y' = .lt := fun y' => hy.lt_of_lt hlt
    have hne : ∀ y' ∈ y :: ys, cmp x y' ≠ .eq := fun y' hy' => unlike_of_lt (hbelow y' hy')
    have ih := ih hx.tail hy
    rcases hrs : gather? cmp combine xs (y :: ys) with _ | rs
    · rw [hrs] at ih
      exact (clashes_cons_left hne).2 ih
    · rw [hrs] at ih
      obtain ⟨hclash, hrising, hmem⟩ := ih
      refine ⟨(clashes_cons_left hne).not.2 hclash, List.pairwise_cons.2 ⟨fun r hr => ?_, hrising⟩, fun r => ?_⟩
      · exact ((hmem r).1 hr).lt hkind (List.pairwise_cons.1 hx).1 hbelow
      · rw [List.mem_cons, hmem, gathered_cons_left hne]
  | case4 x xs y ys hgt ih =>
    have hbelow : ∀ x' ∈ x :: xs, cmp y x' = .lt := fun x' => hx.lt_of_lt (Std.OrientedCmp.gt_iff_lt.1 hgt)
    have hne : ∀ x' ∈ x :: xs, cmp x' y ≠ .eq := fun x' hx' => unlike_symm (unlike_of_lt (hbelow x' hx'))
    have ih := ih hx hy.tail
    rcases hrs : gather? cmp combine (x :: xs) ys with _ | rs
    · rw [hrs] at ih
      exact (clashes_cons_right hne).2 ih
    · rw [hrs] at ih
      obtain ⟨hclash, hrising, hmem⟩ := ih
      refine ⟨(clashes_cons_right hne).not.2 hclash, List.pairwise_cons.2 ⟨fun r hr => ?_, hrising⟩, fun r => ?_⟩
      · exact ((hmem r).1 hr).lt hkind hbelow (List.pairwise_cons.1 hy).1
      · rw [List.mem_cons, hmem, gathered_cons_right hne]
  | case5 x xs y ys heq ih =>
    have hxlt : ∀ x' ∈ xs, cmp x x' = .lt := (List.pairwise_cons.1 hx).1
    have hylt : ∀ y' ∈ ys, cmp x y' = .lt := fun y' hy' => by
      rw [Std.TransCmp.congr_left heq]
      exact (List.pairwise_cons.1 hy).1 y' hy'
    have hxne : ∀ x' ∈ xs, cmp x' y ≠ .eq := fun x' hx' => by
      rw [← Std.TransCmp.congr_right heq]
      exact unlike_symm (unlike_of_lt (hxlt x' hx'))
    have hyne : ∀ y' ∈ ys, cmp x y' ≠ .eq := fun y' hy' => unlike_of_lt (hylt y' hy')
    have ih := ih hx.tail hy.tail
    rcases hz : combine x y with _ | z
    · exact (clashes_cons heq hxne hyne).2 (.inl hz)
    rcases hrs : gather? cmp combine xs ys with _ | rs
    · rw [hrs] at ih
      exact (clashes_cons heq hxne hyne).2 (.inr ih)
    rw [hrs] at ih
    obtain ⟨hclash, hrising, hmem⟩ := ih
    refine ⟨fun h => ?_, ?_, fun r => ?_⟩
    · rcases (clashes_cons heq hxne hyne).1 h with h | h
      · rw [hz] at h
        cases h
      · exact hclash h
    · cases z with
      | none => exact hrising
      | some z =>
        refine List.pairwise_cons.2 ⟨fun r hr => ?_, hrising⟩
        rw [Std.TransCmp.congr_left (hkind x y z heq hz)]
        exact ((hmem r).1 hr).lt hkind hxlt hylt
    · rw [gathered_cons heq hxne hyne, List.mem_append, hmem, hz, Option.mem_toList, Option.some.injEq]

theorem Listed.gather? {P : α → Prop} (hkind : KeepsKind cmp combine)
    (hclosed : ∀ a b c, P a → P b → combine a b = some (some c) → P c) (hx : Listed cmp P xs)
    (hy : Listed cmp P ys) (h : gather? cmp combine xs ys = some rs) : Listed cmp P rs := by
  have hspec := gather?_spec hkind hx.rising hy.rising
  rw [h] at hspec
  exact ⟨hspec.2.1, fun r hr => ((hspec.2.2 r).1 hr).property hclosed hx.all hy.all⟩

namespace Carries

variable {P : α → Prop} {f : α → α} (hf : Carries cmp combine P f)

include hf

theorem rising_sorted_map (hx : Listed cmp P xs) : Rising cmp (sorted cmp (xs.map f)) := by
  refine rising_sorted (List.pairwise_map.2 (hx.rising.pairwise_ne.imp_of_mem fun ha hb hne heq => ?_))
  exact hne ((hf.alike_iff (hx.all _ ha) (hx.all _ hb)).1 heq)

/-- **Rising lists are made one as their images are.** -/
theorem gather?_sorted_map (hkind : KeepsKind cmp combine) (hx : Listed cmp P xs) (hy : Listed cmp P ys) :
    gather? cmp combine (sorted cmp (xs.map f)) (sorted cmp (ys.map f)) =
      (gather? cmp combine xs ys).map fun rs => sorted cmp (rs.map f) := by
  have hspec := gather?_spec hkind hx.rising hy.rising
  have hspec' := gather?_spec hkind (hf.rising_sorted_map hx) (hf.rising_sorted_map hy)
  rcases hrs : gather? cmp combine xs ys with _ | rs <;>
    rcases hrs' : gather? cmp combine (sorted cmp (xs.map f)) (sorted cmp (ys.map f)) with _ | rs' <;>
    simp only [hrs, hrs', hf.clashes_map_iff hx.all hy.all] at hspec hspec'
  · rfl
  · exact absurd hspec hspec'.1
  · exact absurd hspec' hspec.1
  · refine congrArg some (hspec'.2.1.ext (hf.rising_sorted_map (hx.gather? hkind hf.closed hy hrs)) fun r => ?_)
    rw [hspec'.2.2, hf.gathered_map_iff hx.all hy.all, mem_sorted, List.mem_map]
    simp only [hspec.2.2]

end Carries

end Gather

end LinearRelations
