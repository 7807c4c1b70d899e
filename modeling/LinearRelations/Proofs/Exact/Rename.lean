import LinearRelations.Proofs.Exact.Closed
import LinearRelations.Proofs.Exact.Order

/-!
# Renaming the variables of a form

Renaming the variables of a form changes the order in which its terms and factors are listed. In its
own order, the renamed form is what gathering the renamed expression gives.

* `Combination.rename`: a form with its variables renamed, put in order again;
* `Combination.IsOrdered`: every list in a form rises;
* `Combination.rename_rename`: renaming can be taken back;
* `Combination.rename_add?`, `Combination.rename_mul?`, `Combination.rename_inverse`: arithmetic commutes
  with renaming.
-/

namespace LinearRelations

/-! ### Renamed forms -/

/-- A variable gets another name, a constant stays. -/
def Atom.rename (ρ : String → String) : Atom → Atom
  | unknown name => unknown (ρ name)
  | atom => atom

mutual

/-- Renames the variables of a combination and puts terms and factors in order again. -/
def Combination.rename (ρ : String → String) : Combination → Combination
  | .mk c ts => .mk c (sorted Product.compareKind (Combination.renameTerms ρ ts))

def Combination.renameTerms (ρ : String → String) : List Product → List Product
  | [] => []
  | t :: ts => t.rename ρ :: Combination.renameTerms ρ ts

def Product.rename (ρ : String → String) : Product → Product
  | .mk c ps => .mk c (sorted Power.compareBase (Product.renamePowers ρ ps))

def Product.renamePowers (ρ : String → String) : List Power → List Power
  | [] => []
  | p :: ps => p.rename ρ :: Product.renamePowers ρ ps

def Power.rename (ρ : String → String) : Power → Power
  | .mk b k => .mk (b.rename ρ) k

def Base.rename (ρ : String → String) : Base → Base
  | .atom a => .atom (a.rename ρ)
  | .sum c => .sum (c.rename ρ)

end

mutual

/-- Whether all lists of terms and factors in a combination rise. -/
def Combination.IsOrdered : Combination → Prop
  | .mk _ ts => Rising Product.compareKind ts ∧ Combination.TermsOrdered ts

def Combination.TermsOrdered : List Product → Prop
  | [] => True
  | t :: ts => t.IsOrdered ∧ Combination.TermsOrdered ts

def Product.IsOrdered : Product → Prop
  | .mk _ ps => Rising Power.compareBase ps ∧ Product.PowersOrdered ps

def Product.PowersOrdered : List Power → Prop
  | [] => True
  | p :: ps => p.IsOrdered ∧ Product.PowersOrdered ps

def Power.IsOrdered : Power → Prop
  | .mk b _ => b.IsOrdered

def Base.IsOrdered : Base → Prop
  | .atom _ => True
  | .sum c => c.IsOrdered

end

variable {ρ σ : String → String}

namespace Power

/-- Factors renamed and put in order. -/
def renameAll (ρ : String → String) (ps : List Power) : List Power :=
  sorted compareBase (ps.map (rename ρ))

/-- Ordered factors in rising order. -/
abbrev AllOrdered (ps : List Power) : Prop := Listed compareBase IsOrdered ps

@[simp] theorem base_rename (p : Power) : (p.rename ρ).base = p.base.rename ρ := by
  obtain ⟨b, k⟩ := p
  rfl

@[simp] theorem exponent_rename (p : Power) : (p.rename ρ).exponent = p.exponent := by
  obtain ⟨b, k⟩ := p
  rfl

theorem isOrdered_iff {p : Power} : p.IsOrdered ↔ p.base.IsOrdered := by
  obtain ⟨b, k⟩ := p
  rfl

theorem hasUnboundedConstant_rename (p : Power) :
    (p.rename ρ).hasUnboundedConstant = p.hasUnboundedConstant := by
  match p with
  | .mk (.sum (.mk .unbounded _)) _ => rfl
  | .mk (.sum (.mk (.finite _) _)) _ => rfl
  | .mk (.atom _) _ => rfl

end Power

namespace Product

/-- Terms renamed and put in order. -/
def renameAll (ρ : String → String) (ts : List Product) : List Product :=
  sorted compareKind (ts.map (rename ρ))

/-- Ordered terms in rising order. -/
abbrev AllOrdered (ts : List Product) : Prop := Listed compareKind IsOrdered ts

theorem renamePowers_eq (ps : List Power) : renamePowers ρ ps = ps.map (Power.rename ρ) := by
  induction ps with
  | nil => rfl
  | cons p ps ih => rw [renamePowers, ih, List.map_cons]

theorem powersOrdered_iff {ps : List Power} : PowersOrdered ps ↔ ∀ p ∈ ps, p.IsOrdered := by
  induction ps with
  | nil => simp [PowersOrdered]
  | cons p ps ih => rw [PowersOrdered, ih, List.forall_mem_cons]

theorem rename_mk (c : Scale) (ps : List Power) : (mk c ps).rename ρ = mk c (Power.renameAll ρ ps) := by
  rw [rename, renamePowers_eq, Power.renameAll]

theorem isOrdered_iff {s : Product} : s.IsOrdered ↔ Power.AllOrdered s.powers := by
  obtain ⟨c, ps⟩ := s
  rw [IsOrdered, powersOrdered_iff]
  exact ⟨fun h => ⟨h.1, h.2⟩, fun h => ⟨h.1, h.2⟩⟩

theorem isOrdered_mk {c : Scale} {ps : List Power} : (mk c ps).IsOrdered ↔ Power.AllOrdered ps := isOrdered_iff

@[simp] theorem coefficient_rename (s : Product) : (s.rename ρ).coefficient = s.coefficient := by
  obtain ⟨c, ps⟩ := s
  rfl

@[simp] theorem powers_rename (s : Product) : (s.rename ρ).powers = Power.renameAll ρ s.powers := by
  obtain ⟨c, ps⟩ := s
  rw [rename_mk]
  rfl

end Product

namespace Combination

theorem renameTerms_eq (ts : List Product) : renameTerms ρ ts = ts.map (Product.rename ρ) := by
  induction ts with
  | nil => rfl
  | cons t ts ih => rw [renameTerms, ih, List.map_cons]

theorem termsOrdered_iff {ts : List Product} : TermsOrdered ts ↔ ∀ t ∈ ts, t.IsOrdered := by
  induction ts with
  | nil => simp [TermsOrdered]
  | cons t ts ih => rw [TermsOrdered, ih, List.forall_mem_cons]

theorem rename_mk (c : Scale) (ts : List Product) : (mk c ts).rename ρ = mk c (Product.renameAll ρ ts) := by
  rw [rename, renameTerms_eq, Product.renameAll]

theorem isOrdered_iff {c : Combination} : c.IsOrdered ↔ Product.AllOrdered c.terms := by
  obtain ⟨c, ts⟩ := c
  rw [IsOrdered, termsOrdered_iff]
  exact ⟨fun h => ⟨h.1, h.2⟩, fun h => ⟨h.1, h.2⟩⟩

@[simp] theorem constant_rename (c : Combination) : (c.rename ρ).constant = c.constant := by
  obtain ⟨c, ts⟩ := c
  rfl

@[simp] theorem terms_rename (c : Combination) : (c.rename ρ).terms = Product.renameAll ρ c.terms := by
  obtain ⟨c, ts⟩ := c
  rw [rename_mk]
  rfl

end Combination

/-! ### Taking a renaming back -/

theorem Atom.rename_rename (h : Function.LeftInverse σ ρ) (a : Atom) : (a.rename ρ).rename σ = a := by
  cases a with
  | unknown name => exact congrArg unknown (h name)
  | _ => rfl

mutual

/-- **Renaming an ordered form can be taken back.** -/
theorem Combination.rename_rename (h : Function.LeftInverse σ ρ) : ∀ {c : Combination}, c.IsOrdered →
    (c.rename ρ).rename σ = c
  | .mk c ts, hc => by
    rw [Combination.rename_mk, Combination.rename_mk, Product.renameAll, Product.renameAll,
      hc.1.sorted_map_sorted_map (Combination.termsRename_rename h hc.2)]

theorem Combination.termsRename_rename (h : Function.LeftInverse σ ρ) : ∀ {ts : List Product},
    Combination.TermsOrdered ts → ∀ t ∈ ts, (t.rename ρ).rename σ = t
  | [], _ => nofun
  | _ :: _, ht => List.forall_mem_cons.2
    ⟨Product.rename_rename h ht.1, Combination.termsRename_rename h ht.2⟩

theorem Product.rename_rename (h : Function.LeftInverse σ ρ) : ∀ {s : Product}, s.IsOrdered →
    (s.rename ρ).rename σ = s
  | .mk c ps, hs => by
    rw [Product.rename_mk, Product.rename_mk, Power.renameAll, Power.renameAll,
      hs.1.sorted_map_sorted_map (Product.powersRename_rename h hs.2)]

theorem Product.powersRename_rename (h : Function.LeftInverse σ ρ) : ∀ {ps : List Power},
    Product.PowersOrdered ps → ∀ p ∈ ps, (p.rename ρ).rename σ = p
  | [], _ => nofun
  | _ :: _, hp => List.forall_mem_cons.2 ⟨Power.rename_rename h hp.1, Product.powersRename_rename h hp.2⟩

theorem Power.rename_rename (h : Function.LeftInverse σ ρ) : ∀ {p : Power}, p.IsOrdered →
    (p.rename ρ).rename σ = p
  | .mk _ k, hp => congrArg (Power.mk · k) (Base.rename_rename h hp)

theorem Base.rename_rename (h : Function.LeftInverse σ ρ) : ∀ {b : Base}, b.IsOrdered →
    (b.rename ρ).rename σ = b
  | .atom a, _ => congrArg Base.atom (Atom.rename_rename h a)
  | .sum _, hc => congrArg Base.sum (Combination.rename_rename h hc)

end

/-! ### Renaming and merging -/

section Carry

variable (hρ : Function.Injective ρ)

include hρ

theorem Base.rename_inj {b c : Base} (hb : b.IsOrdered) (hc : c.IsOrdered) :
    b.rename ρ = c.rename ρ ↔ b = c := by
  obtain ⟨σ, hσ⟩ := hρ.hasLeftInverse
  refine ⟨fun h => ?_, congrArg _⟩
  rw [← rename_rename hσ hb, h, rename_rename hσ hc]

theorem Power.renameAll_inj {ps qs : List Power} (hp : AllOrdered ps) (hq : AllOrdered qs) :
    renameAll ρ ps = renameAll ρ qs ↔ ps = qs := by
  obtain ⟨σ, hσ⟩ := hρ.hasLeftInverse
  refine ⟨fun h => ?_, congrArg _⟩
  rw [← hp.rising.sorted_map_sorted_map fun p hp' => rename_rename hσ (hp.all p hp'),
    ← hq.rising.sorted_map_sorted_map fun q hq' => rename_rename hσ (hq.all q hq')]
  exact congrArg (fun ps => sorted compareBase (ps.map (rename σ))) h

end Carry

namespace Power

/-- What two powers of one base make: their exponents add up, and of a quotient of equals nothing is
left, unless it is unbounded. -/
def timesLike (p q : Power) : Option (Option Power) :=
  if p.exponent + q.exponent = 0 then if p.hasUnboundedConstant then none else some none
  else some (some (mk p.base (p.exponent + q.exponent)))

theorem merge?_eq_gather? (ps qs : List Power) : merge? ps qs = gather? compareBase timesLike ps qs := by
  fun_induction merge? ps qs with
  | case1 qs => rw [gather?]
  | case2 ps hne => rw [gather?]; exact hne
  | case3 p ps q qs h ih => rw [gather?, compareBase, h, ih]
  | case4 p ps q qs h ih => rw [gather?, compareBase, h, ih]
  | case5 p ps q qs h hzero hunb => simp [gather?, compareBase, h, timesLike, hzero, hunb]
  | case6 p ps q qs h hzero hunb ih => simp [gather?, compareBase, h, timesLike, hzero, hunb, ih]
  | case7 p ps q qs h hzero ih => simp [gather?, compareBase, h, timesLike, hzero, ih]

theorem keepsKind_timesLike : KeepsKind compareBase timesLike := by
  intro p q r _ h
  rw [compareBase_eq_iff]
  grind [timesLike, base]

theorem carries_rename (hρ : Function.Injective ρ) :
    Carries compareBase timesLike IsOrdered (rename ρ) where
  closed p q r hp _ h := by
    obtain ⟨b, k⟩ := p
    grind [timesLike, IsOrdered, base]
  alike_iff hp hq := by
    rw [compareBase_eq_iff, compareBase_eq_iff, base_rename, base_rename,
      Base.rename_inj hρ (isOrdered_iff.1 hp) (isOrdered_iff.1 hq)]
  combine_eq {p q} _ _ _ := by
    simp only [timesLike, exponent_rename, hasUnboundedConstant_rename, base_rename]
    split_ifs <;> rfl

end Power

namespace Product

theorem gather?_eq_mergeTerms (ss ts : List Product) :
    gather? compareKind (fun s t => some (s.addLike t)) ss ts = some (mergeTerms ss ts) := by
  fun_induction mergeTerms ss ts with
  | case1 ts => rw [gather?]
  | case2 ss hne => rw [gather?]; exact hne
  | case3 s ss t ts h ih => rw [gather?, h, ih]; rfl
  | case4 s ss t ts h ih => rw [gather?, h, ih]; rfl
  | case5 s ss t ts h r hr ih => simp [gather?, h, hr, ih]
  | case6 s ss t ts h hr ih => simp [gather?, h, hr, ih]

theorem powers_addLike {s t r : Product} (h : s.addLike t = some r) : r.powers = s.powers := by
  rcases s with ⟨_ | _, ps⟩ <;> rcases t with ⟨_ | _, qs⟩ <;> grind [addLike, powers]

theorem keepsKind_addLike : KeepsKind compareKind fun s t => some (s.addLike t) := by
  rintro s t r heq h
  rw [compareKind_eq_iff] at heq ⊢
  refine ⟨powers_addLike (Option.some.inj h), ?_⟩
  rcases s with ⟨_ | _, ps⟩ <;> rcases t with ⟨_ | _, qs⟩ <;>
    grind [addLike, coefficient, Scale.isUnbounded]

theorem carries_rename (hρ : Function.Injective ρ) :
    Carries compareKind (fun s t => some (s.addLike t)) IsOrdered (rename ρ) where
  closed s t r hs _ h := by
    rw [isOrdered_iff, powers_addLike (Option.some.inj h)]
    exact isOrdered_iff.1 hs
  alike_iff hs ht := by
    rw [compareKind_eq_iff, compareKind_eq_iff, powers_rename, powers_rename, coefficient_rename,
      coefficient_rename, Power.renameAll_inj hρ (isOrdered_iff.1 hs) (isOrdered_iff.1 ht)]
  combine_eq {s t} _ _ _ := by
    rcases s with ⟨_ | _, ps⟩ <;> rcases t with ⟨_ | _, qs⟩ <;>
      simp only [rename_mk, addLike, Option.map_some]
    split_ifs <;> simp [rename_mk]

end Product

/-! ### Factors -/

namespace Power

theorem allOrdered_nil : AllOrdered [] := ⟨List.Pairwise.nil, nofun⟩

theorem allOrdered_singleton {p : Power} (hp : p.IsOrdered) : AllOrdered [p] :=
  ⟨List.pairwise_singleton _ _, fun _ h => List.mem_singleton.1 h ▸ hp⟩

@[simp] theorem renameAll_nil : renameAll ρ [] = [] := by simp [renameAll, sorted]

@[simp] theorem renameAll_singleton (p : Power) : renameAll ρ [p] = [p.rename ρ] := by
  simp [renameAll, sorted]

@[simp] theorem length_renameAll (ps : List Power) : (renameAll ρ ps).length = ps.length := by
  rw [renameAll, (sorted_perm _).length_eq, List.length_map]

@[simp] theorem base_inverse (p : Power) : p.inverse.base = p.base := by
  obtain ⟨b, k⟩ := p
  rfl

theorem compareBase_inverse (p q : Power) : p.inverse.compareBase q.inverse = p.compareBase q := by
  rw [compareBase, base_inverse, base_inverse, compareBase]

theorem rename_inverse (p : Power) : p.inverse.rename ρ = (p.rename ρ).inverse := by
  obtain ⟨b, k⟩ := p
  rfl

theorem AllOrdered.merge? {ps qs rs : List Power} (hp : AllOrdered ps) (hq : AllOrdered qs)
    (h : merge? ps qs = some rs) : AllOrdered rs := by
  rw [merge?_eq_gather?] at h
  exact hp.gather? keepsKind_timesLike (carries_rename Function.injective_id).closed hq h

theorem AllOrdered.filter {ps : List Power} (hp : AllOrdered ps) (test : Power → Bool) :
    AllOrdered (ps.filter test) :=
  ⟨hp.rising.filter test, fun p h => hp.all p (List.mem_of_mem_filter h)⟩

theorem AllOrdered.map_inverse {ps : List Power} (hp : AllOrdered ps) : AllOrdered (ps.map inverse) := by
  refine ⟨hp.rising.map compareBase_inverse, fun r hr => ?_⟩
  obtain ⟨p, hp', rfl⟩ := List.mem_map.1 hr
  rw [isOrdered_iff, base_inverse, ← isOrdered_iff]
  exact hp.all p hp'

variable (hρ : Function.Injective ρ)

include hρ

theorem rename_merge? {ps qs : List Power} (hp : AllOrdered ps) (hq : AllOrdered qs) :
    Power.merge? (renameAll ρ ps) (renameAll ρ qs) = (Power.merge? ps qs).map (renameAll ρ) := by
  rw [merge?_eq_gather?, merge?_eq_gather?]
  exact (carries_rename hρ).gather?_sorted_map keepsKind_timesLike hp hq

theorem renameAll_filter {ps : List Power} (hp : AllOrdered ps) {test : Power → Bool}
    (htest : ∀ p : Power, test (p.rename ρ) = test p) :
    renameAll ρ (ps.filter test) = (renameAll ρ ps).filter test :=
  ((carries_rename hρ).rising_sorted_map hp).sorted_map_filter fun p _ => htest p

theorem renameAll_map_inverse {ps : List Power} (hp : AllOrdered ps) :
    renameAll ρ (ps.map inverse) = (renameAll ρ ps).map inverse :=
  ((carries_rename hρ).rising_sorted_map hp).sorted_map_map compareBase_inverse fun p _ => rename_inverse p

end Power

/-! ### What a renamed form contains -/

theorem Product.powersHaveVariable_eq (test : String → Bool) (ps : List Power) :
    powersHaveVariable test ps = ps.any (Power.hasVariable test) := by
  induction ps with
  | nil => rfl
  | cons p ps ih => rw [powersHaveVariable, ih, List.any_cons]

theorem Combination.termsHaveVariable_eq (test : String → Bool) (ts : List Product) :
    termsHaveVariable test ts = ts.any (Product.hasVariable test) := by
  induction ts with
  | nil => rfl
  | cons t ts ih => rw [termsHaveVariable, ih, List.any_cons]

mutual

/-- The variables of a renamed form are those of the form, renamed. -/
theorem Combination.hasVariable_rename (test : String → Bool) : ∀ c : Combination,
    (c.rename ρ).hasVariable test = c.hasVariable (test ∘ ρ)
  | .mk c ts => by
    rw [Combination.rename, Combination.hasVariable, Combination.termsHaveVariable_eq,
      (sorted_perm _).any_eq, ← Combination.termsHaveVariable_eq,
      Combination.termsHaveVariable_rename, Combination.hasVariable]

theorem Combination.termsHaveVariable_rename (test : String → Bool) : ∀ ts : List Product,
    Combination.termsHaveVariable test (Combination.renameTerms ρ ts) =
      Combination.termsHaveVariable (test ∘ ρ) ts
  | [] => rfl
  | t :: ts => by
    rw [Combination.renameTerms, Combination.termsHaveVariable, Product.hasVariable_rename,
      Combination.termsHaveVariable_rename, Combination.termsHaveVariable]

theorem Product.hasVariable_rename (test : String → Bool) : ∀ s : Product,
    (s.rename ρ).hasVariable test = s.hasVariable (test ∘ ρ)
  | .mk c ps => by
    rw [Product.rename, Product.hasVariable, Product.powersHaveVariable_eq, (sorted_perm _).any_eq,
      ← Product.powersHaveVariable_eq, Product.powersHaveVariable_rename, Product.hasVariable]

theorem Product.powersHaveVariable_rename (test : String → Bool) : ∀ ps : List Power,
    Product.powersHaveVariable test (Product.renamePowers ρ ps) = Product.powersHaveVariable (test ∘ ρ) ps
  | [] => rfl
  | p :: ps => by
    rw [Product.renamePowers, Product.powersHaveVariable, Power.hasVariable_rename,
      Product.powersHaveVariable_rename, Product.powersHaveVariable]

theorem Power.hasVariable_rename (test : String → Bool) : ∀ p : Power,
    (p.rename ρ).hasVariable test = p.hasVariable (test ∘ ρ)
  | .mk b k => by
    rw [Power.rename, Power.hasVariable, Base.hasVariable_rename, Power.hasVariable]

theorem Base.hasVariable_rename (test : String → Bool) : ∀ b : Base,
    (b.rename ρ).hasVariable test = b.hasVariable (test ∘ ρ)
  | .atom a => by cases a <;> rfl
  | .sum c => by
    rw [Base.rename, Base.hasVariable, Combination.hasVariable_rename, Base.hasVariable]

end

theorem Power.isClosed_rename (p : Power) : (p.rename ρ).isClosed = p.isClosed :=
  congrArg (! ·) (p.hasVariable_rename _)

theorem Product.isClosed_rename (s : Product) : (s.rename ρ).isClosed = s.isClosed :=
  congrArg (! ·) (s.hasVariable_rename _)

/-! ### The square root of two -/

/-- The square root of two comes before everything else. -/
theorem Base.rootTwo_compare {b : Base} (h : b ≠ .atom .rootTwo) : (atom .rootTwo).compare b = .lt := by
  rcases b with a | c
  · have hrank : Ord.compare Atom.rootTwo.rank a.rank = .lt := by
      rcases a with _ | _ | _ | _ | _ | _
      · exact absurd rfl h
      all_goals rfl
    rw [compare, Atom.compare, hrank, Ordering.lt_then]
  · rw [compare]

@[simp] theorem Base.rename_eq_rootTwo_iff {b : Base} : b.rename ρ = .atom .rootTwo ↔ b = .atom .rootTwo := by
  rcases b with (_ | _ | _ | _ | _ | _) | _ <;> simp [rename, Atom.rename]

namespace Power

theorem extractTwos_eq_self {ps : List Power} (h : ∀ p ∈ ps, p.base ≠ .atom .rootTwo) :
    extractTwos ps = (1, ps) := by
  unfold extractTwos
  split
  · exact absurd rfl (h _ List.mem_cons_self)
  · rfl

/-- Rising factors have powers of the square root of two in front only. -/
theorem AllOrdered.rootTwo_first {ps : List Power} (hp : AllOrdered ps) :
    (∃ k rest, ps = mk (.atom .rootTwo) k :: rest ∧ AllOrdered rest ∧ ∀ p ∈ rest, p.base ≠ .atom .rootTwo) ∨
      ∀ p ∈ ps, p.base ≠ .atom .rootTwo := by
  rcases ps with _ | ⟨⟨b, k⟩, rest⟩
  · exact .inr nofun
  obtain ⟨hfirst, hrest⟩ := List.pairwise_cons.1 hp.rising
  by_cases hb : b = .atom .rootTwo
  · subst hb
    refine .inl ⟨k, rest, rfl, ⟨hrest, fun p h => hp.all p (List.mem_cons_of_mem _ h)⟩, fun p h heq => ?_⟩
    exact unlike_of_lt (hfirst p h) (compareBase_eq_iff.2 heq.symm)
  · refine .inr (List.forall_mem_cons.2 ⟨hb, fun p h heq => ?_⟩)
    have hlt : b.compare p.base = .lt := hfirst p h
    rw [heq] at hlt
    exact Std.OrientedCmp.not_lt_of_lt hlt (Base.rootTwo_compare hb)

theorem allOrdered_cons_rootTwo {rest : List Power} (hrest : AllOrdered rest)
    (hne : ∀ p ∈ rest, p.base ≠ .atom .rootTwo) (k : Int) : AllOrdered (mk (.atom .rootTwo) k :: rest) :=
  ⟨List.pairwise_cons.2 ⟨fun p h => Base.rootTwo_compare (hne p h), hrest.rising⟩,
    List.forall_mem_cons.2 ⟨trivial, hrest.all⟩⟩

theorem AllOrdered.extractTwos {ps : List Power} (hp : AllOrdered ps) : AllOrdered (extractTwos ps).2 := by
  rcases hp.rootTwo_first with ⟨k, rest, rfl, hrest, hne⟩ | hne
  · rw [Power.extractTwos]
    split
    · exact hrest
    · exact allOrdered_cons_rootTwo hrest hne 1
  · rwa [extractTwos_eq_self hne]

variable (hρ : Function.Injective ρ)

include hρ

theorem renameAll_cons_rootTwo {rest : List Power} (hrest : AllOrdered rest)
    (hne : ∀ p ∈ rest, p.base ≠ .atom .rootTwo) (k : Int) :
    renameAll ρ (mk (.atom .rootTwo) k :: rest) = mk (.atom .rootTwo) k :: renameAll ρ rest := by
  have hrising : Rising compareBase (mk (.atom .rootTwo) k :: renameAll ρ rest) := by
    refine List.pairwise_cons.2 ⟨fun q hq => ?_, (carries_rename hρ).rising_sorted_map hrest⟩
    obtain ⟨p, hp, rfl⟩ := List.mem_map.1 (mem_sorted.1 hq)
    refine Base.rootTwo_compare fun h => hne p hp ?_
    rwa [base_rename, Base.rename_eq_rootTwo_iff] at h
  exact hrising.sorted_eq_of_perm ((sorted_perm _).symm.cons _)

/-- Powers of two are taken out before or after renaming. -/
theorem extractTwos_renameAll {ps : List Power} (hp : AllOrdered ps) :
    Power.extractTwos (renameAll ρ ps) =
      ((Power.extractTwos ps).1, renameAll ρ (Power.extractTwos ps).2) := by
  rcases hp.rootTwo_first with ⟨k, rest, rfl, hrest, hne⟩ | hne
  · rw [renameAll_cons_rootTwo hρ hrest hne, Power.extractTwos, Power.extractTwos]
    split
    · rfl
    · rw [renameAll_cons_rootTwo hρ hrest hne]
  · rw [extractTwos_eq_self hne, extractTwos_eq_self]
    intro q hq
    obtain ⟨p, hp, rfl⟩ := List.mem_map.1 (mem_sorted.1 hq)
    rw [base_rename, Ne, Base.rename_eq_rootTwo_iff]
    exact hne p hp

end Power

/-! ### Terms -/

namespace Product

theorem allOrdered_nil : AllOrdered [] := ⟨List.Pairwise.nil, nofun⟩

theorem allOrdered_singleton {t : Product} (ht : t.IsOrdered) : AllOrdered [t] :=
  ⟨List.pairwise_singleton _ _, fun _ h => List.mem_singleton.1 h ▸ ht⟩

@[simp] theorem renameAll_nil : renameAll ρ [] = [] := by simp [renameAll, sorted]

@[simp] theorem renameAll_singleton (t : Product) : renameAll ρ [t] = [t.rename ρ] := by
  simp [renameAll, sorted]

@[simp] theorem length_renameAll (ts : List Product) : (renameAll ρ ts).length = ts.length := by
  rw [renameAll, (sorted_perm _).length_eq, List.length_map]

theorem AllOrdered.mergeTerms {ss ts : List Product} (hs : AllOrdered ss) (ht : AllOrdered ts) :
    AllOrdered (mergeTerms ss ts) :=
  hs.gather? keepsKind_addLike (carries_rename Function.injective_id).closed ht (gather?_eq_mergeTerms ss ts)

theorem AllOrdered.filter {ts : List Product} (ht : AllOrdered ts) (test : Product → Bool) :
    AllOrdered (ts.filter test) :=
  ⟨ht.rising.filter test, fun t h => ht.all t (List.mem_of_mem_filter h)⟩

theorem coefficient_scale (q : Rat) (s : Product) :
    (s.scale q).coefficient.isUnbounded = s.coefficient.isUnbounded := by
  rcases s with ⟨_ | _, ps⟩ <;> rfl

theorem compareKind_scale (q : Rat) (s t : Product) :
    (s.scale q).compareKind (t.scale q) = s.compareKind t := by
  simp only [compareKind, powers_scale, coefficient_scale]

theorem rename_scale (q : Rat) (s : Product) : (s.scale q).rename ρ = (s.rename ρ).scale q := by
  rcases s with ⟨_ | _, ps⟩ <;> simp only [scale, rename_mk]

theorem AllOrdered.map_scale {ts : List Product} (ht : AllOrdered ts) (q : Rat) :
    AllOrdered (ts.map (scale q)) := by
  refine ⟨ht.rising.map (compareKind_scale q), fun r hr => ?_⟩
  obtain ⟨t, ht', rfl⟩ := List.mem_map.1 hr
  rw [isOrdered_iff, powers_scale, ← isOrdered_iff]
  exact ht.all t ht'

variable (hρ : Function.Injective ρ) {ss ts : List Product}

include hρ

theorem mergeTerms_renameAll (hs : AllOrdered ss) (ht : AllOrdered ts) :
    Product.mergeTerms (renameAll ρ ss) (renameAll ρ ts) = renameAll ρ (Product.mergeTerms ss ts) := by
  have h := (carries_rename hρ).gather?_sorted_map keepsKind_addLike hs ht
  rw [gather?_eq_mergeTerms, gather?_eq_mergeTerms] at h
  exact Option.some.inj h

theorem renameAll_map_scale (ht : AllOrdered ts) (q : Rat) :
    renameAll ρ (ts.map (scale q)) = (renameAll ρ ts).map (scale q) :=
  ((carries_rename hρ).rising_sorted_map ht).sorted_map_map (compareKind_scale q) fun t _ => rename_scale q t

theorem renameAll_filter (ht : AllOrdered ts) {test : Product → Bool}
    (htest : ∀ t : Product, test (t.rename ρ) = test t) :
    renameAll ρ (ts.filter test) = (renameAll ρ ts).filter test :=
  ((carries_rename hρ).rising_sorted_map ht).sorted_map_filter fun t _ => htest t

end Product

/-! ### Combinations -/

namespace Combination

theorem IsOrdered.scale {c : Combination} (hc : c.IsOrdered) (q : Rat) : (c.scale q).IsOrdered := by
  rw [isOrdered_iff] at hc ⊢
  rcases c with ⟨_ | _, ts⟩ <;> exact hc.map_scale q

theorem isOrdered_ofTerms {c : Scale} {ts : List Product} (ht : Product.AllOrdered ts) :
    (ofTerms c ts).IsOrdered := by
  rw [isOrdered_iff]
  rcases c with _ | _
  · exact ht
  · exact ht.filter _

theorem IsOrdered.add? {c d r : Combination} (hc : c.IsOrdered) (hd : d.IsOrdered)
    (h : c.add? d = some r) : r.IsOrdered := by
  obtain ⟨s, -, rfl⟩ := Option.map_eq_some_iff.1 h
  exact isOrdered_ofTerms ((isOrdered_iff.1 hc).mergeTerms (isOrdered_iff.1 hd))

theorem isOrdered_sum {c : Combination} (hc : c.IsOrdered) :
    (Product.mk (.finite 1) [.mk (.sum c) 1]).IsOrdered :=
  Product.isOrdered_iff.2 (Power.allOrdered_singleton hc)

theorem IsOrdered.asProduct {c : Combination} (hc : c.IsOrdered) : c.asProduct.IsOrdered := by
  unfold Combination.asProduct
  split
  · exact Product.isOrdered_iff.2 Power.allOrdered_nil
  · split
    · exact (isOrdered_iff.1 hc).all _ List.mem_cons_self
    · exact isOrdered_sum hc
  · exact isOrdered_sum hc

theorem isOrdered_ofProduct {s : Product} (hs : s.IsOrdered) : (ofProduct s).IsOrdered := by
  obtain ⟨c, powers⟩ := s
  have hps := (Product.isOrdered_iff.1 hs).extractTwos
  have hsingle : ∀ (q : Scale) {ps : List Power}, Power.AllOrdered ps →
      (mk (.finite 0) [.mk q ps]).IsOrdered := fun q ps h =>
    isOrdered_iff.2 (Product.allOrdered_singleton (Product.isOrdered_iff.2 h))
  have hrat : ∀ c : Scale, (mk c []).IsOrdered := fun _ => isOrdered_iff.2 Product.allOrdered_nil
  rcases hextract : Power.extractTwos powers with ⟨two, ps⟩
  rw [Product.powers, hextract] at hps
  cases c with
  | unbounded =>
    simp only [ofProduct, hextract]
    split
    · exact hrat _
    · exact hsingle _ (hps.filter _)
  | finite q =>
    simp only [ofProduct, hextract]
    split
    · exact hrat _
    · split
      · exact hrat _
      · next c => exact IsOrdered.scale (hps.all (.mk (.sum c) 1) List.mem_cons_self) _
      · exact hsingle _ hps

theorem isOrdered_times? {s t r : Product} (hs : s.IsOrdered) (ht : t.IsOrdered)
    (h : times? s t = some r) : r.IsOrdered := by
  obtain ⟨c, ps⟩ := s
  obtain ⟨d, qs⟩ := t
  rw [Product.isOrdered_mk] at hs ht
  rw [times?] at h
  obtain ⟨scale, -, h⟩ := Option.bind_eq_some_iff.1 h
  obtain ⟨rs, hrs, h⟩ := Option.bind_eq_some_iff.1 h
  obtain rfl := Option.some.inj h
  exact Product.isOrdered_mk.2 (hs.merge? ht hrs)

theorem IsOrdered.mul? {c d r : Combination} (hc : c.IsOrdered) (hd : d.IsOrdered)
    (h : c.mul? d = some r) : r.IsOrdered := by
  obtain ⟨s, hs, rfl⟩ := Option.map_eq_some_iff.1 h
  exact isOrdered_ofProduct (isOrdered_times? hc.asProduct hd.asProduct hs)

theorem IsOrdered.inverse {c : Combination} (hc : c.IsOrdered) : c.inverse.IsOrdered := by
  have hc := Product.isOrdered_iff.1 hc.asProduct
  unfold Combination.inverse
  rcases hcp : c.asProduct with ⟨s, ps⟩
  rw [hcp] at hc
  exact isOrdered_ofProduct (Product.isOrdered_iff.2 hc.map_inverse)

/-! ### Renaming and arithmetic -/

theorem rename_single (c : Scale) (t : Product) : (mk c [t]).rename ρ = mk c [t.rename ρ] := by
  rw [rename_mk, Product.renameAll_singleton]

theorem rename_number (c : Scale) : (mk c []).rename ρ = mk c [] := by
  rw [rename_mk, Product.renameAll_nil]

theorem rename_sum (c : Combination) : (Product.mk (.finite 1) [.mk (.sum c) 1]).rename ρ =
    .mk (.finite 1) [.mk (.sum (c.rename ρ)) 1] := by
  rw [Product.rename_mk, Power.renameAll_singleton, Power.rename, Base.rename]

theorem rename_asProduct (c : Combination) : c.asProduct.rename ρ = (c.rename ρ).asProduct := by
  rcases c with ⟨s, _ | ⟨t, _ | ⟨u, ts⟩⟩⟩
  · rw [rename_number, asProduct, Product.rename_mk, Power.renameAll_nil]
  · rw [rename_single]
    rcases s with q | _
    · rw [asProduct, asProduct]
      split
      · rfl
      · rw [rename_sum, rename_single]
    · simp only [asProduct, rename_sum, rename_single]
  · have hlength : (Product.renameAll ρ (t :: u :: ts)).length = ts.length + 2 := by simp
    rw [rename_mk]
    rcases hall : Product.renameAll ρ (t :: u :: ts) with _ | ⟨t', _ | ⟨u', ts'⟩⟩
    · simp [hall] at hlength
    · simp [hall] at hlength
    · simp only [asProduct, rename_sum, rename_mk, hall]

variable (hρ : Function.Injective ρ) {c d : Combination}

include hρ

theorem rename_scale (hc : c.IsOrdered) (q : Rat) : (c.scale q).rename ρ = (c.rename ρ).scale q := by
  obtain ⟨s, ts⟩ := c
  have ht : Product.AllOrdered ts := isOrdered_iff.1 hc
  cases s <;> simp only [Combination.scale, rename_mk, Product.renameAll_map_scale hρ ht]

theorem rename_add? (hc : c.IsOrdered) (hd : d.IsOrdered) :
    (c.rename ρ).add? (d.rename ρ) = (c.add? d).map (rename ρ) := by
  have hmerge := (isOrdered_iff.1 hc).mergeTerms (isOrdered_iff.1 hd)
  simp only [Combination.add?, constant_rename, terms_rename, Option.map_map,
    Product.mergeTerms_renameAll hρ (isOrdered_iff.1 hc) (isOrdered_iff.1 hd)]
  congr 1
  funext s
  rcases s with _ | _
  · exact (rename_mk _ _).symm
  · rw [Function.comp, ofTerms, ofTerms, rename_mk,
      Product.renameAll_filter hρ hmerge fun t => by rw [Product.isClosed_rename]]

theorem rename_ofProduct {s : Product} (hs : s.IsOrdered) :
    (ofProduct s).rename ρ = ofProduct (s.rename ρ) := by
  obtain ⟨c, powers⟩ := s
  have hpowers := Product.isOrdered_mk.1 hs
  have hps := hpowers.extractTwos
  have hextract' := Power.extractTwos_renameAll hρ hpowers
  rcases hextract : Power.extractTwos powers with ⟨two, ps⟩
  simp only [hextract] at hps hextract'
  rw [Product.rename_mk]
  cases c with
  | unbounded =>
    simp only [ofProduct, hextract, hextract']
    rw [← Power.renameAll_filter hρ hps fun p => congrArg not p.isClosed_rename]
    rcases hopen : ps.filter (fun p => !p.isClosed) with _ | ⟨p, rest⟩
    · simp only [hopen, Power.renameAll_nil]
      exact rename_number _
    · rcases hall : Power.renameAll ρ (p :: rest) with _ | ⟨p', rest'⟩
      · simpa using congrArg List.length hall
      · simp only [hopen, rename_single, Product.rename_mk, hall]
  | finite q =>
    simp only [ofProduct, hextract, hextract']
    split
    · exact rename_number _
    rcases ps with _ | ⟨p, _ | ⟨p', rest⟩⟩
    · rw [Power.renameAll_nil]
      exact rename_number _
    · rw [Power.renameAll_singleton]
      rcases p with ⟨a | c, k⟩
      · simp only [Power.rename, Base.rename, rename_single, Product.rename_mk, Power.renameAll_singleton]
      · by_cases hk : k = 1
        · subst hk
          exact rename_scale hρ (hps.all _ List.mem_cons_self) _
        · rw [Power.rename, Base.rename]
          split
          · next h => cases h
          · next h => cases h; exact absurd rfl hk
          · split
            · next h => cases h
            · next h => cases h; exact absurd rfl hk
            · rw [rename_single, Product.rename_mk, Power.renameAll_singleton]
              rfl
    · rcases hall : Power.renameAll ρ (p :: p' :: rest) with _ | ⟨r, _ | ⟨r', all⟩⟩
      · simpa using congrArg List.length hall
      · simpa using congrArg List.length hall
      · simp only [rename_single, Product.rename_mk, hall]

theorem rename_times? {s t : Product} (hs : s.IsOrdered) (ht : t.IsOrdered) :
    times? (s.rename ρ) (t.rename ρ) = (times? s t).map (Product.rename ρ) := by
  obtain ⟨c, ps⟩ := s
  obtain ⟨d, qs⟩ := t
  rw [Product.isOrdered_mk] at hs ht
  rw [Product.rename_mk, Product.rename_mk, times?, times?, Power.rename_merge? hρ hs ht]
  rcases c.mul? d with _ | s
  · rfl
  rcases Power.merge? ps qs with _ | rs
  · rfl
  · exact congrArg some (Product.rename_mk s rs).symm

theorem rename_mul? (hc : c.IsOrdered) (hd : d.IsOrdered) :
    (c.rename ρ).mul? (d.rename ρ) = (c.mul? d).map (rename ρ) := by
  rw [Combination.mul?, Combination.mul?, ← rename_asProduct, ← rename_asProduct,
    rename_times? hρ hc.asProduct hd.asProduct, Option.map_map, Option.map_map]
  refine Option.map_congr fun s hs => (rename_ofProduct hρ ?_).symm
  exact isOrdered_times? hc.asProduct hd.asProduct hs

theorem rename_inverse (hc : c.IsOrdered) : c.inverse.rename ρ = (c.rename ρ).inverse := by
  have hs := hc.asProduct
  rw [Combination.inverse, Combination.inverse, ← rename_asProduct]
  rcases hcp : c.asProduct with ⟨s, ps⟩
  rw [hcp, Product.isOrdered_mk] at hs
  rw [Product.rename_mk]
  dsimp only
  rw [rename_ofProduct hρ (Product.isOrdered_mk.2 hs.map_inverse), Product.rename_mk,
    Power.renameAll_map_inverse hρ hs]

end Combination

end LinearRelations
