import LinearRelations.Proofs.Exact.Fraction

/-!
# Variables of gathered forms

Arithmetic on gathered forms adds no variable, so the form of an expression has only variables of
the expression.

* `Power.base_mem_merge?`, `Product.powers_mem_mergeTerms`: gathering only regroups;
* `Combination.hasVariable_add?`, `Combination.hasVariable_mul?`, …: one lemma per operation;
* `Expr.hasVariable_combination`: the variables of an expression and of its form.
-/

namespace LinearRelations

variable {test : String → Bool}

/-! ### Powers and products -/

namespace Power

theorem hasVariable_eq (p : Power) : p.hasVariable test = p.base.hasVariable test := by
  obtain ⟨b, k⟩ := p
  rfl

theorem powersHaveVariable_eq_false_iff {ps : List Power} :
    Product.powersHaveVariable test ps = false ↔ ∀ p ∈ ps, p.base.hasVariable test = false := by
  induction ps with
  | nil => simp [Product.powersHaveVariable]
  | cons p ps ih =>
    rw [Product.powersHaveVariable, Bool.or_eq_false_iff, ih, List.forall_mem_cons, hasVariable_eq]

/-- Merging powers makes no new base. -/
theorem base_mem_merge? {ps qs rs : List Power} (h : merge? ps qs = some rs) {r : Power} (hr : r ∈ rs) :
    ∃ p ∈ ps ++ qs, r.base = p.base := by
  fun_induction merge? ps qs generalizing rs with
  | case1 qs => exact ⟨r, Option.some.inj h ▸ hr, rfl⟩
  | case2 ps _ => exact ⟨r, List.mem_append_left _ (Option.some.inj h ▸ hr), rfl⟩
  | case3 p ps q qs _ ih =>
    obtain ⟨rest, hrest, rfl⟩ := Option.map_eq_some_iff.1 h
    rcases List.mem_cons.1 hr with rfl | hr
    · exact ⟨_, by simp, rfl⟩
    · obtain ⟨p', hp', hbase⟩ := ih hrest hr
      exact ⟨p', List.mem_cons_of_mem _ hp', hbase⟩
  | case4 p ps q qs _ ih =>
    obtain ⟨rest, hrest, rfl⟩ := Option.map_eq_some_iff.1 h
    rcases List.mem_cons.1 hr with rfl | hr
    · exact ⟨_, by simp, rfl⟩
    · obtain ⟨p', hp', hbase⟩ := ih hrest hr
      refine ⟨p', ?_, hbase⟩
      rcases List.mem_append.1 hp' with hp' | hp'
      · exact List.mem_append_left _ hp'
      · exact List.mem_append_right _ (List.mem_cons_of_mem _ hp')
  | case5 p ps q qs _ _ _ => cases h
  | case6 p ps q qs _ _ _ ih =>
    obtain ⟨p', hp', hbase⟩ := ih h hr
    refine ⟨p', ?_, hbase⟩
    rcases List.mem_append.1 hp' with hp' | hp'
    · exact List.mem_append_left _ (List.mem_cons_of_mem _ hp')
    · exact List.mem_append_right _ (List.mem_cons_of_mem _ hp')
  | case7 p ps q qs _ _ ih =>
    obtain ⟨rest, hrest, rfl⟩ := Option.map_eq_some_iff.1 h
    rcases List.mem_cons.1 hr with rfl | hr
    · exact ⟨p, by simp, rfl⟩
    · obtain ⟨p', hp', hbase⟩ := ih hrest hr
      refine ⟨p', ?_, hbase⟩
      rcases List.mem_append.1 hp' with hp' | hp'
      · exact List.mem_append_left _ (List.mem_cons_of_mem _ hp')
      · exact List.mem_append_right _ (List.mem_cons_of_mem _ hp')

theorem base_mem_extractTwos {ps : List Power} {r : Power} (hr : r ∈ (extractTwos ps).2) :
    ∃ p ∈ ps, r.base = p.base := by
  unfold extractTwos at hr
  split at hr
  · next k rest =>
    split at hr
    · exact ⟨r, List.mem_cons_of_mem _ hr, rfl⟩
    · rcases List.mem_cons.1 hr with rfl | hr
      · exact ⟨_, List.mem_cons_self, rfl⟩
      · exact ⟨r, List.mem_cons_of_mem _ hr, rfl⟩
  · exact ⟨r, hr, rfl⟩

end Power

namespace Product

theorem hasVariable_eq_false_iff {s : Product} :
    s.hasVariable test = false ↔ ∀ p ∈ s.powers, p.base.hasVariable test = false := by
  obtain ⟨c, ps⟩ := s
  exact Power.powersHaveVariable_eq_false_iff

/-- Adding two rising lists of terms makes no new powers. -/
theorem powers_mem_mergeTerms {ss ts : List Product} {r : Product} (hr : r ∈ mergeTerms ss ts) :
    ∃ s ∈ ss ++ ts, r.powers = s.powers := by
  have hright : ∀ {s u : Product} {ss ts : List Product}, (∃ p ∈ ss ++ ts, r.powers = p.powers) →
      ∃ p ∈ s :: ss ++ u :: ts, r.powers = p.powers := by
    rintro s u ss ts ⟨p, hp, hpowers⟩
    refine ⟨p, ?_, hpowers⟩
    rcases List.mem_append.1 hp with hp | hp
    · exact List.mem_append_left _ (List.mem_cons_of_mem _ hp)
    · exact List.mem_append_right _ (List.mem_cons_of_mem _ hp)
  fun_induction mergeTerms ss ts with
  | case1 ts => exact ⟨r, hr, rfl⟩
  | case2 ss _ => exact ⟨r, List.mem_append_left _ hr, rfl⟩
  | case3 s ss u ts _ ih =>
    rcases List.mem_cons.1 hr with rfl | hr
    · exact ⟨_, by simp, rfl⟩
    · obtain ⟨p, hp, hpowers⟩ := ih hr
      exact ⟨p, List.mem_cons_of_mem _ hp, hpowers⟩
  | case4 s ss u ts _ ih =>
    rcases List.mem_cons.1 hr with rfl | hr
    · exact ⟨_, by simp, rfl⟩
    · obtain ⟨p, hp, hpowers⟩ := ih hr
      refine ⟨p, ?_, hpowers⟩
      rcases List.mem_append.1 hp with hp | hp
      · exact List.mem_append_left _ hp
      · exact List.mem_append_right _ (List.mem_cons_of_mem _ hp)
  | case5 s ss u ts _ r' hr' ih =>
    rcases List.mem_cons.1 hr with rfl | hr
    · refine ⟨s, by simp, ?_⟩
      obtain ⟨c, ps⟩ := s
      obtain ⟨d, qs⟩ := u
      rcases c with p | _ <;> rcases d with q | _ <;> simp only [addLike] at hr'
      · simp only [Option.ite_none_left_eq_some, Option.some.injEq] at hr'
        exact (congrArg powers hr'.2).symm
      all_goals exact (congrArg powers (Option.some.inj hr')).symm
    · exact hright (ih hr)
  | case6 s ss u ts _ _ ih => exact hright (ih hr)

theorem powers_scale (q : Rat) (s : Product) : (s.scale q).powers = s.powers := by
  rcases s with ⟨_ | _, ps⟩ <;> rfl

end Product

/-! ### Combinations -/

namespace Combination

theorem hasVariable_eq_false_iff {c : Combination} :
    c.hasVariable test = false ↔ ∀ s ∈ c.terms, s.hasVariable test = false := by
  obtain ⟨c, ts⟩ := c
  rw [hasVariable, terms]
  induction ts with
  | nil => simp [termsHaveVariable]
  | cons s ts ih => rw [termsHaveVariable, Bool.or_eq_false_iff, ih, List.forall_mem_cons]

theorem hasVariable_scale {c : Combination} (q : Rat) (h : c.hasVariable test = false) :
    (c.scale q).hasVariable test = false := by
  rw [hasVariable_eq_false_iff] at h ⊢
  have hmap : (c.scale q).terms = c.terms.map (Product.scale q) := by
    rcases c with ⟨_ | _, ts⟩ <;> rfl
  rw [hmap]
  intro s hs
  obtain ⟨s', hs', rfl⟩ := List.mem_map.1 hs
  rw [Product.hasVariable_eq_false_iff, Product.powers_scale, ← Product.hasVariable_eq_false_iff]
  exact h s' hs'

theorem hasVariable_add? {c d r : Combination} (hc : c.hasVariable test = false)
    (hd : d.hasVariable test = false) (h : c.add? d = some r) : r.hasVariable test = false := by
  obtain ⟨s, -, rfl⟩ := Option.map_eq_some_iff.1 h
  rw [hasVariable_eq_false_iff] at hc hd ⊢
  have hmerge : ∀ u ∈ Product.mergeTerms c.terms d.terms, u.hasVariable test = false := by
    intro u hu
    obtain ⟨p, hp, hpowers⟩ := Product.powers_mem_mergeTerms hu
    rw [Product.hasVariable_eq_false_iff, hpowers, ← Product.hasVariable_eq_false_iff]
    rcases List.mem_append.1 hp with hp | hp
    · exact hc p hp
    · exact hd p hp
  intro u hu
  cases s with
  | finite q => exact hmerge u hu
  | unbounded => exact hmerge u (List.mem_of_mem_filter hu)

theorem hasVariable_asProduct {c : Combination} (h : c.hasVariable test = false) :
    c.asProduct.hasVariable test = false := by
  have hone : ∀ {c : Combination}, c.hasVariable test = false →
      (Product.mk (.finite 1) [.mk (.sum c) 1]).hasVariable test = false := by
    intro c h
    simpa [Product.hasVariable, Product.powersHaveVariable, Power.hasVariable, Base.hasVariable] using h
  unfold asProduct
  split
  · rfl
  · split
    · rw [hasVariable_eq_false_iff] at h
      exact h _ (by simp [terms])
    · exact hone h
  · exact hone h

theorem hasVariable_ofProduct {s : Product} (h : s.hasVariable test = false) :
    (ofProduct s).hasVariable test = false := by
  obtain ⟨c, powers⟩ := s
  rw [Product.hasVariable_eq_false_iff] at h
  have hps : ∀ p ∈ (Power.extractTwos powers).2, p.base.hasVariable test = false := by
    intro p hp
    obtain ⟨p', hp', hbase⟩ := Power.base_mem_extractTwos hp
    rw [hbase]
    exact h p' hp'
  have hsingle : ∀ (q : Scale) {ps : List Power}, (∀ p ∈ ps, p.base.hasVariable test = false) →
      (mk (.finite 0) [.mk q ps]).hasVariable test = false := by
    intro q ps hps
    rw [hasVariable_eq_false_iff]
    intro s hs
    rw [List.mem_singleton.1 hs, Product.hasVariable_eq_false_iff]
    exact hps
  rcases hextract : Power.extractTwos powers with ⟨two, ps⟩
  rw [hextract] at hps
  cases c with
  | unbounded =>
    simp only [ofProduct, hextract]
    split
    · rfl
    · next hopen _ => exact hsingle _ fun p hp => hps p (List.mem_of_mem_filter hp)
  | finite q =>
    simp only [ofProduct, hextract]
    split
    · rfl
    · split
      · rfl
      · next s => exact hasVariable_scale _ (hps (.mk (.sum s) 1) (by simp))
      · exact hsingle _ hps

theorem hasVariable_mul? {c d r : Combination} (hc : c.hasVariable test = false)
    (hd : d.hasVariable test = false) (h : c.mul? d = some r) : r.hasVariable test = false := by
  obtain ⟨s, hs, rfl⟩ := Option.map_eq_some_iff.1 h
  refine hasVariable_ofProduct ?_
  have hc := hasVariable_asProduct hc
  have hd := hasVariable_asProduct hd
  rcases hcp : c.asProduct with ⟨a, ps⟩
  rcases hdp : d.asProduct with ⟨b, qs⟩
  rw [hcp] at hc
  rw [hdp] at hd
  rw [Product.hasVariable_eq_false_iff] at hc hd ⊢
  rw [hcp, hdp, times?] at hs
  obtain ⟨scale, -, hs⟩ := Option.bind_eq_some_iff.1 hs
  obtain ⟨rs, hrs, hs⟩ := Option.bind_eq_some_iff.1 hs
  obtain rfl := Option.some.inj hs
  intro p hp
  obtain ⟨p', hp', hbase⟩ := Power.base_mem_merge? hrs hp
  rw [hbase]
  rcases List.mem_append.1 hp' with hp' | hp'
  · exact hc p' hp'
  · exact hd p' hp'

theorem hasVariable_inverse {c : Combination} (h : c.hasVariable test = false) :
    c.inverse.hasVariable test = false := by
  have hc := hasVariable_asProduct h
  unfold inverse
  rcases hcp : c.asProduct with ⟨a, ps⟩
  rw [hcp, Product.hasVariable_eq_false_iff] at hc
  refine hasVariable_ofProduct (Product.hasVariable_eq_false_iff.2 fun p hp => ?_)
  obtain ⟨⟨b, k⟩, hp', rfl⟩ := List.mem_map.1 hp
  exact hc (.mk b k) hp'

end Combination

/-! ### Expressions -/

theorem LeafValue.hasVariable_combination (v : LeafValue) (h : ∀ x, v = .unknown x → test x = false) :
    v.combination.hasVariable test = false := by
  have hatom : ∀ (q : Rat) (a : Atom) (k : Int), (∀ x, a = .unknown x → test x = false) →
      (Combination.ofProduct (.mk (.finite q) [.mk (.atom a) k])).hasVariable test = false := by
    intro q a k ha
    refine Combination.hasVariable_ofProduct (Product.hasVariable_eq_false_iff.2 fun p hp => ?_)
    rw [List.mem_singleton.1 hp]
    cases a with
    | unknown x => exact ha x rfl
    | _ => rfl
  cases v with
  | number q => rfl
  | constant c =>
    refine hatom _ _ _ fun x hx => ?_
    have := isUnknown_parts c
    rw [show c.parts.2.1 = .unknown x from hx] at this
    cases this
  | unknown x => exact hatom 1 (.unknown x) 1 fun y hy => h y (by rw [Atom.unknown.inj hy])

/-- **The gathered form of an expression has only variables of the expression.** -/
theorem Expr.hasVariable_combination {e : Expr} {c : Combination} (h : e.combination = .ok (some c))
    (hv : ∀ x ∈ e.variables, test x = false) : c.hasVariable test = false := by
  induction e generalizing c with
  | leaf operand =>
    obtain ⟨v, hread, h⟩ := exists_of_bind_eq_ok h
    obtain rfl : v.combination = c := Option.some.inj (Except.ok.inj h)
    exact v.hasVariable_combination fun x hx => hv x (Operand.mem_variables_of_read (hx ▸ hread))
  | node lhs op rhs ihl ihr =>
    obtain ⟨l, hl, h⟩ := exists_of_bind_eq_ok h
    obtain ⟨r, hr, h⟩ := exists_of_bind_eq_ok h
    replace h := Except.ok.inj h
    rcases l with _ | l
    · cases h
    rcases r with _ | r
    · cases h
    have hl := ihl hl fun x hx => hv x (mem_variables_node.2 (.inl hx))
    have hr := ihr hr fun x hx => hv x (mem_variables_node.2 (.inr hx))
    cases op with
    | mul => exact Combination.hasVariable_mul? hl hr h
    | div => exact Combination.hasVariable_mul? hl (Combination.hasVariable_inverse hr) h
    | add => exact Combination.hasVariable_add? hl hr h
    | sub => exact Combination.hasVariable_add? hl (Combination.hasVariable_scale _ hr) h

end LinearRelations
