import LinearRelations.Numeric.Double
import LinearRelations.Proofs.PlainDecimal

/-!
# Doubles as exact numbers

A finite double is a whole number of at most 53 places times a power of two.

* `Double.IsCanonical`: the significands and exponents of doubles;
* `Double.Denotes`: the exact value of an unpacked double;
* `Double.toRat?_eq_some_iff`: the exact value read from the bits is that of the double unpacked;
* `Double.unpack_pack_finite`, `Double.Denotes.toRat?_pack`: packing loses nothing of a double;
* `Double.le_iff`, `Double.beq_iff`: doubles compare as their values do.
-/

namespace LinearRelations.Double

open Float.Model (Format UnpackedFloat)
open Float.Model.UnpackedFloat

/-- A significand has 53 places, or fewer ones at the smallest exponent. -/
def IsCanonical (m : ℕ) (e : ℤ) : Prop := m < 2 ^ 53 ∧ -1074 ≤ e ∧ (2 ^ 52 ≤ m ∨ e = -1074)

/-- The sign as a number. -/
def signUnit : UnpackedFloat.Sign → ℚ
  | .negative => -1
  | .positive => 1

@[simp] theorem cast_apply (s : UnpackedFloat.Sign) (n : ℤ) : ((s.apply n : ℤ) : ℚ) = signUnit s * n := by
  cases s <;> simp [UnpackedFloat.Sign.apply, signUnit]

@[simp] theorem abs_signUnit (s : UnpackedFloat.Sign) : |signUnit s| = 1 := by
  cases s <;> simp [signUnit]

@[simp] theorem signUnit_neg (s : UnpackedFloat.Sign) : signUnit (-s) = -signUnit s := by
  cases s
  · exact (neg_neg 1).symm
  · rfl

@[simp] theorem signUnit_mul (s s' : UnpackedFloat.Sign) : signUnit (s * s') = signUnit s * signUnit s' := by
  cases s <;> cases s'
  · exact (neg_mul_neg 1 1).trans (one_mul 1) |>.symm
  · exact (mul_one _).symm
  · exact (one_mul _).symm
  · exact (one_mul _).symm

/-- The exact value of a finite double. -/
inductive Denotes : UnpackedFloat → ℚ → Prop
  | zero (s : UnpackedFloat.Sign) : Denotes (.zero s) 0
  | finite (s : UnpackedFloat.Sign) {m : ℕ} {e : ℤ} (hm : 0 < m) (hc : IsCanonical m e) (he : e ≤ 971) :
      Denotes (.finite s m e hm) (signUnit s * (m * 2 ^ e))

theorem denotes_zero_iff {s : UnpackedFloat.Sign} {p : ℚ} : Denotes (.zero s) p ↔ 0 = p := by
  constructor
  · rintro ⟨⟩
    rfl
  · rintro rfl
    exact .zero s

theorem denotes_finite_iff {s : UnpackedFloat.Sign} {m : ℕ} {e : ℤ} {hm : 0 < m} {p : ℚ} :
    Denotes (.finite s m e hm) p ↔ (IsCanonical m e ∧ e ≤ 971) ∧ signUnit s * (m * 2 ^ e) = p := by
  constructor
  · rintro ⟨⟩
    exact ⟨⟨‹_›, ‹_›⟩, rfl⟩
  · rintro ⟨⟨hc, he⟩, rfl⟩
    exact .finite s hm hc he

/-! ### Bits -/

section Bits

variable (b : BitVec 64)

theorem toNat_unpackExponent : (@unpackExponent Format.binary64 b).toNat = b.toNat / 2 ^ 52 % 2 ^ 11 := by
  simp only [unpackExponent, BitVec.toNat_cast, BitVec.extractLsb_toNat, Nat.shiftRight_eq_div_pow]

theorem toNat_unpackMantissa : (@unpackMantissa Format.binary64 b).toNat = b.toNat % 2 ^ 52 := by
  simp only [unpackMantissa, BitVec.toNat_cast, BitVec.extractLsb_toNat, Nat.shiftRight_eq_div_pow,
    pow_zero, Nat.div_one]

theorem ofBitVec_unpackSign : UnpackedFloat.Sign.ofBitVec (@unpackSign Format.binary64 b) =
    if 2 ^ 63 ≤ b.toNat then .negative else .positive := by
  have hsign : (@unpackSign Format.binary64 b).toNat = b.toNat / 2 ^ 63 % 2 := by
    simp only [unpackSign, BitVec.toNat_cast, BitVec.extractLsb_toNat, Nat.shiftRight_eq_div_pow]
  have hlt : b.toNat < 2 ^ 64 := b.isLt
  have hzero : @unpackSign Format.binary64 b = 0#1 ↔ ¬ 2 ^ 63 ≤ b.toNat := by
    rw [← BitVec.toNat_inj, hsign, BitVec.toNat_ofNat]
    omega
  by_cases hnegative : 2 ^ 63 ≤ b.toNat
  · rw [if_pos hnegative, UnpackedFloat.Sign.ofBitVec, if_neg fun h => hzero.1 h hnegative]
  · rw [if_neg hnegative, UnpackedFloat.Sign.ofBitVec, if_pos (hzero.2 hnegative)]

/-- The exponent of infinities and of what is no number. -/
theorem unpackExponent_eq_ones_iff :
    @unpackExponent Format.binary64 b = -1#11 ↔ b.toNat / 2 ^ 52 % 2 ^ 11 = 0x7FF := by
  rw [← BitVec.toNat_inj, toNat_unpackExponent]
  rfl

theorem unpackExponent_eq_zero_iff :
    @unpackExponent Format.binary64 b = 0#11 ↔ b.toNat / 2 ^ 52 % 2 ^ 11 = 0 := by
  rw [← BitVec.toNat_inj, toNat_unpackExponent]
  rfl

theorem unpackMantissa_eq_zero_iff : @unpackMantissa Format.binary64 b = 0#52 ↔ b.toNat % 2 ^ 52 = 0 := by
  rw [← BitVec.toNat_inj, toNat_unpackMantissa]
  rfl

/-- The leading place, which is not stored, in front of the others. -/
theorem toNat_append_unpackMantissa :
    (1#1 ++ @unpackMantissa Format.binary64 b).toNat = b.toNat % 2 ^ 52 + 2 ^ 52 := by
  have hlt := (@unpackMantissa Format.binary64 b).isLt
  rw [BitVec.toNat_append, ← Nat.shiftLeft_add_eq_or_of_lt hlt, toNat_unpackMantissa, add_comm]
  rfl

theorem finite_congr {s : UnpackedFloat.Sign} {m m' : ℕ} {e e' : ℤ} (hm : m = m') (he : e = e')
    {h : 0 < m} {h' : 0 < m'} :
    UnpackedFloat.finite s m e h = .finite s m' e' h' := by
  subst hm he
  rfl

/-- **A double unpacked**, by its exponent: infinities and what is no number at the highest, zeros and
numbers of less than 53 places at the lowest, all others in between. -/
theorem unpack_cases {s : UnpackedFloat.Sign} (hs : s = if 2 ^ 63 ≤ b.toNat then .negative else .positive) :
    (b.toNat / 2 ^ 52 % 2 ^ 11 = 0x7FF ∧
      (unpack Format.binary64 b = .infinity s ∨ unpack Format.binary64 b = .notANumber)) ∨
    (b.toNat / 2 ^ 52 % 2 ^ 11 = 0 ∧ b.toNat % 2 ^ 52 = 0 ∧ unpack Format.binary64 b = .zero s) ∨
    (b.toNat / 2 ^ 52 % 2 ^ 11 = 0 ∧ ∃ h, unpack Format.binary64 b = .finite s (b.toNat % 2 ^ 52) (-1074) h) ∨
    (b.toNat / 2 ^ 52 % 2 ^ 11 ≠ 0x7FF ∧ b.toNat / 2 ^ 52 % 2 ^ 11 ≠ 0 ∧
      ∃ h, unpack Format.binary64 b =
        .finite s (b.toNat % 2 ^ 52 + 2 ^ 52) ((b.toNat / 2 ^ 52 % 2 ^ 11 : ℕ) - 1075) h) := by
  rw [← ofBitVec_unpackSign] at hs
  unfold unpack
  simp only [← hs]
  have hexponent := toNat_unpackExponent b
  split
  · next hones =>
    refine .inl ⟨(unpackExponent_eq_ones_iff b).1 hones, ?_⟩
    split
    · exact .inl rfl
    · exact .inr rfl
  next hones =>
  split
  · next hzero =>
    have hzero' := (unpackExponent_eq_zero_iff b).1 hzero
    split
    · next hfraction => exact .inr (.inl ⟨hzero', (unpackMantissa_eq_zero_iff b).1 hfraction, rfl⟩)
    · next hfraction =>
      have hpos : 0 < b.toNat % 2 ^ 52 :=
        Nat.pos_of_ne_zero fun h => hfraction ((unpackMantissa_eq_zero_iff b).2 h)
      refine .inr (.inr (.inl ⟨hzero', hpos, finite_congr (toNat_unpackMantissa b) ?_⟩))
      rw [hexponent, hzero']
      rfl
  · next hzero =>
    refine .inr (.inr (.inr ⟨fun h => hones ((unpackExponent_eq_ones_iff b).2 h),
      fun h => hzero ((unpackExponent_eq_zero_iff b).2 h), by omega,
      finite_congr (toNat_append_unpackMantissa b) ?_⟩))
    rw [hexponent]
    rfl

end Bits

/-- The exact value from the fields of the bits. -/
theorem toRat?_eq_of_fields (x : Float) {n m : ℕ} {e : ℤ} (hn : x.toModel.toBits.toBitVec.toNat = n)
    (hm : (if n / 2 ^ 52 % 2 ^ 11 = 0 then n % 2 ^ 52 else n % 2 ^ 52 + 2 ^ 52) = m)
    (he : ((max (n / 2 ^ 52 % 2 ^ 11) 1 : ℕ) - 1075 : ℤ) = e) :
    toRat? x = if n / 2 ^ 52 % 2 ^ 11 = 0x7FF then none
      else some (if 2 ^ 63 ≤ n then -((m : ℚ) * 2 ^ e) else (m : ℚ) * 2 ^ e) := by
  have hsize := Text.size_eq_mul_zpow 2 m e
  rw [Nat.cast_ofNat] at hsize
  rw [← hsize]
  subst hn hm he
  rfl

/-- **The exact value read from the bits** is that of the double unpacked. -/
theorem toRat?_eq_some_iff {x : Float} {p : ℚ} : toRat? x = some p ↔ Denotes x.toModel.unpack p := by
  rw [toRat?_eq_of_fields x rfl rfl rfl, Float.Model.unpack]
  generalize x.toModel.toBits.toBitVec = b
  have hsign : ∀ v : ℚ, (if 2 ^ 63 ≤ b.toNat then -v else v) =
      signUnit (if 2 ^ 63 ≤ b.toNat then .negative else .positive) * v := by
    intro v
    split
    · exact (neg_one_mul v).symm
    · exact (one_mul v).symm
  have hfraction : b.toNat % 2 ^ 52 < 2 ^ 52 := Nat.mod_lt _ (by decide)
  have hexponent : b.toNat / 2 ^ 52 % 2 ^ 11 < 2 ^ 11 := Nat.mod_lt _ (by decide)
  rw [hsign]
  rcases unpack_cases b rfl with
    ⟨hones, hb | hb⟩ | ⟨hzero, hnil, hb⟩ | ⟨hzero, hpos, hb⟩ | ⟨hones, hzero, hpos, hb⟩
  · rw [hb, if_pos hones]
    exact ⟨nofun, nofun⟩
  · rw [hb, if_pos hones]
    exact ⟨nofun, nofun⟩
  · rw [hb, hzero, hnil, denotes_zero_iff]
    simp
  · have hlowest : ((max 0 1 : ℕ) : ℤ) - 1075 = -1074 := rfl
    have hc : IsCanonical (b.toNat % 2 ^ 52) (-1074) := ⟨by omega, le_rfl, .inr rfl⟩
    rw [hb, hzero, if_neg (by decide), if_pos rfl, hlowest, denotes_finite_iff, and_iff_right ⟨hc, by decide⟩,
      Option.some_inj]
  · have hmax : max (b.toNat / 2 ^ 52 % 2 ^ 11) 1 = b.toNat / 2 ^ 52 % 2 ^ 11 := by omega
    have hc : IsCanonical (b.toNat % 2 ^ 52 + 2 ^ 52) ((b.toNat / 2 ^ 52 % 2 ^ 11 : ℕ) - 1075) :=
      ⟨by omega, by omega, .inl (by omega)⟩
    rw [hb, if_neg hones, if_neg hzero, hmax, denotes_finite_iff, and_iff_right ⟨hc, by omega⟩,
      Option.some_inj]

/-! ### Packing -/

theorem toNat_packComponents (s : UnpackedFloat.Sign) (e : BitVec 11) (m : BitVec 52) :
    (packComponents Format.binary64 s e m).toNat =
      s.toBitVec.toNat * 2 ^ 63 + e.toNat * 2 ^ 52 + m.toNat := by
  have he := e.isLt
  have hm := m.isLt
  change (s.toBitVec ++ e ++ m).toNat = _
  rw [BitVec.toNat_append, ← Nat.shiftLeft_add_eq_or_of_lt hm, BitVec.toNat_append,
    ← Nat.shiftLeft_add_eq_or_of_lt he, Nat.shiftLeft_eq, Nat.shiftLeft_eq]
  ring

/-- The fields of what is put together from them. -/
theorem fields_packComponents (s : UnpackedFloat.Sign) (e : BitVec 11) (m : BitVec 52) :
    (packComponents Format.binary64 s e m).toNat / 2 ^ 52 % 2 ^ 11 = e.toNat ∧
      (packComponents Format.binary64 s e m).toNat % 2 ^ 52 = m.toNat ∧
      s = if 2 ^ 63 ≤ (packComponents Format.binary64 s e m).toNat then .negative else .positive := by
  have he := e.isLt
  have hm := m.isLt
  rw [toNat_packComponents]
  rcases s with _ | _
  · have hs : UnpackedFloat.Sign.negative.toBitVec.toNat = 1 := rfl
    rw [hs, if_pos (by omega)]
    exact ⟨by omega, by omega, rfl⟩
  · have hs : UnpackedFloat.Sign.positive.toBitVec.toNat = 0 := rfl
    rw [hs, if_neg (by omega)]
    exact ⟨by omega, by omega, rfl⟩

theorem unpack_pack_zero (s : UnpackedFloat.Sign) : (Float.Model.pack (.zero s)).unpack = .zero s := by
  cases s <;> rfl

theorem unpack_pack_infinity (s : UnpackedFloat.Sign) :
    (Float.Model.pack (.infinity s)).unpack = .infinity s := by
  cases s <;> rfl

/-- A number with too high an exponent is packed as infinity. -/
theorem unpack_pack_of_lt (s : UnpackedFloat.Sign) {m : ℕ} {e : ℤ} (hm : 0 < m) (he : 971 < e) :
    (Float.Model.pack (.finite s m e hm)).unpack = .infinity s := by
  have hpack : pack Format.binary64 (.finite s m e hm) = pack Format.binary64 (.infinity s) := by
    have hhigh : 2 ^ Format.binary64.exponentBits ≤ (e + 1023 + 52).toNat + 1 := by
      change 2048 ≤ (e + 1023 + 52).toNat + 1
      omega
    exact if_pos hhigh
  exact (congrArg (unpack Format.binary64) hpack).trans (unpack_pack_infinity s)

/-- **A canonical number is packed without loss**, unless its exponent is too high. -/
theorem unpack_pack_finite (s : UnpackedFloat.Sign) {m : ℕ} {e : ℤ} (hm : 0 < m) (hc : IsCanonical m e)
    (he : e ≤ 971) :
    (Float.Model.pack (.finite s m e hm)).unpack = .finite s m e hm := by
  obtain ⟨hlt, hle, hleading⟩ := hc
  have hhigh : ¬ 2 ^ Format.binary64.exponentBits ≤ (e + 1023 + 52).toNat + 1 := by
    change ¬ 2048 ≤ (e + 1023 + 52).toNat + 1
    omega
  change unpack Format.binary64 (pack Format.binary64 (.finite s m e hm)) = _
  by_cases hnormal : 2 ^ 52 ≤ m
  · have hlog : m.log2 + 1 = Format.binary64.mantissaBits := by
      rw [(Nat.log2_eq_iff hm.ne').2 ⟨hnormal, hlt⟩]
      rfl
    have hpack : pack Format.binary64 (.finite s m e hm) =
        packComponents Format.binary64 s (BitVec.ofNat 11 (e + 1023 + 52).toNat) (BitVec.ofNat 52 m) :=
      (if_neg hhigh).trans (if_pos hlog)
    obtain ⟨hexponent, hfraction, hsign⟩ :=
      fields_packComponents s (BitVec.ofNat 11 (e + 1023 + 52).toNat) (BitVec.ofNat 52 m)
    rw [BitVec.toNat_ofNat] at hexponent hfraction
    rw [hpack]
    rcases unpack_cases _ hsign with ⟨hones, -⟩ | ⟨hzero, -⟩ | ⟨hzero, -⟩ | ⟨-, -, hpos, hb⟩
    · omega
    · omega
    · omega
    · rw [hb]
      exact finite_congr (by omega) (by omega)
  · have hlog : ¬ m.log2 + 1 = Format.binary64.mantissaBits := by
      have hlog := (Nat.log2_lt hm.ne').2 (not_le.1 hnormal)
      change ¬ m.log2 + 1 = 53
      omega
    have hpack : pack Format.binary64 (.finite s m e hm) =
        packComponents Format.binary64 s 0#11 (BitVec.ofNat 52 m) :=
      (if_neg hhigh).trans (if_neg hlog)
    obtain ⟨hexponent, hfraction, hsign⟩ := fields_packComponents s 0#11 (BitVec.ofNat 52 m)
    rw [BitVec.toNat_ofNat] at hexponent hfraction
    rw [hpack]
    rcases unpack_cases _ hsign with ⟨hones, -⟩ | ⟨-, hnil, -⟩ | ⟨-, hpos, hb⟩ | ⟨-, hzero, -⟩
    · omega
    · omega
    · rw [hb]
      exact finite_congr (by omega) (by omega)
    · omega

/-- **Packing keeps the value.** -/
theorem Denotes.toRat?_pack {u : UnpackedFloat} {p : ℚ} (h : Denotes u p) :
    toRat? (.ofModel (.pack u)) = some p := by
  rw [toRat?_eq_some_iff]
  rcases h with s | ⟨s, hm, hc, he⟩
  · exact (unpack_pack_zero s).symm ▸ .zero s
  · exact (unpack_pack_finite s hm hc he).symm ▸ .finite s hm hc he

/-- The largest doubles. -/
theorem abs_lt_of_toRat? {x : Float} {p : ℚ} (hp : toRat? x = some p) : |p| < 2 ^ 1024 := by
  rw [toRat?_eq_some_iff] at hp
  generalize x.toModel.unpack = u at hp
  rcases hp with s | @⟨s, m, e, hm, hc, he⟩
  · rw [abs_zero]
    positivity
  · have hlt : (m : ℚ) < 2 ^ 53 := by exact_mod_cast hc.1
    rw [abs_mul, abs_signUnit, one_mul, abs_of_nonneg (by positivity)]
    calc (m : ℚ) * 2 ^ e < 2 ^ 53 * 2 ^ e := mul_lt_mul_of_pos_right hlt (by positivity)
      _ ≤ 2 ^ 53 * 2 ^ (971 : ℤ) :=
        mul_le_mul_of_nonneg_left (zpow_le_zpow_right₀ one_le_two he) (by positivity)
      _ = 2 ^ 1024 := by rw [zpow_ofNat, ← pow_add]

/-! ### Comparison -/

/-- A double of a higher exponent is larger. -/
theorem scaled_lt {m₁ m₂ : ℕ} {e₁ e₂ : ℤ} (h₁ : IsCanonical m₁ e₁) (h₂ : IsCanonical m₂ e₂) (he : e₁ < e₂) :
    (m₁ : ℚ) * 2 ^ e₁ < m₂ * 2 ^ e₂ := by
  have hleading : 2 ^ 52 ≤ m₂ := h₂.2.2.resolve_right fun h => by
    have := h₁.2.1
    omega
  calc (m₁ : ℚ) * 2 ^ e₁ < 2 ^ 53 * 2 ^ e₁ := by
        have hm : (m₁ : ℚ) < 2 ^ 53 := by exact_mod_cast h₁.1
        exact mul_lt_mul_of_pos_right hm (by positivity)
    _ = 2 ^ 52 * 2 ^ (e₁ + 1) := by
        rw [zpow_add_one₀ two_ne_zero]
        ring
    _ ≤ 2 ^ 52 * 2 ^ e₂ := by
        have hpow : (2 : ℚ) ^ (e₁ + 1) ≤ 2 ^ e₂ := zpow_le_zpow_right₀ one_le_two (by omega)
        exact mul_le_mul_of_nonneg_left hpow (by positivity)
    _ ≤ m₂ * 2 ^ e₂ := by
        have hm : (2 : ℚ) ^ 52 ≤ m₂ := by exact_mod_cast hleading
        exact mul_le_mul_of_nonneg_right hm (by positivity)

/-- Exponents first, then significands. -/
theorem then_compare_eq_cmp {m₁ m₂ : ℕ} {e₁ e₂ : ℤ} (h₁ : IsCanonical m₁ e₁) (h₂ : IsCanonical m₂ e₂) :
    (compare e₁ e₂).then (compare m₁ m₂) = cmp ((m₁ : ℚ) * 2 ^ e₁) (m₂ * 2 ^ e₂) := by
  rcases lt_trichotomy e₁ e₂ with he | rfl | he
  · rw [compare_lt_iff_lt.2 he, (cmp_eq_lt_iff _ _).2 (scaled_lt h₁ h₂ he)]
    rfl
  · rw [compare_eq_iff_eq.2 rfl, cmp_mul_pos_right (by positivity), Nat.strictMono_cast.cmp_map_eq,
      cmp_eq_compare]
    rfl
  · rw [compare_gt_iff_gt.2 he, (cmp_eq_gt_iff _ _).2 (scaled_lt h₂ h₁ he)]
    rfl

/-- **Doubles compare as their values do.** -/
theorem Denotes.compare_eq {u v : UnpackedFloat} {p q : ℚ} (hp : Denotes u p) (hq : Denotes v q) :
    u.compare v = some (cmp p q) := by
  have hlt : ∀ {p q : ℚ}, p < q → some Ordering.lt = some (cmp p q) :=
    fun h => congrArg some ((cmp_eq_lt_iff _ _).2 h).symm
  have hgt : ∀ {p q : ℚ}, q < p → some Ordering.gt = some (cmp p q) :=
    fun h => congrArg some ((cmp_eq_gt_iff _ _).2 h).symm
  rcases hp with s | @⟨s, m, e, hm, hc, he⟩ <;> rcases hq with s' | @⟨s', m', e', hm', hc', he'⟩
  · exact congrArg some (cmp_self_eq_eq 0).symm
  · have hpos : (0 : ℚ) < m' * 2 ^ e' := by positivity
    cases s' with
    | negative => exact hgt (by rw [signUnit]; linarith)
    | positive => exact hlt (by rw [signUnit]; linarith)
  · have hpos : (0 : ℚ) < m * 2 ^ e := by positivity
    cases s with
    | negative => exact hlt (by rw [signUnit]; linarith)
    | positive => exact hgt (by rw [signUnit]; linarith)
  · have hpos : (0 : ℚ) < m * 2 ^ e := by positivity
    have hpos' : (0 : ℚ) < m' * 2 ^ e' := by positivity
    have hcompare := then_compare_eq_cmp hc hc'
    cases s <;> cases s'
    · have hneg : cmp (-1 * ((m : ℚ) * 2 ^ e)) (-1 * (m' * 2 ^ e')) = cmp ((m' : ℚ) * 2 ^ e') (m * 2 ^ e) :=
        cmp_mul_neg_left neg_one_lt_zero _ _
      simp only [UnpackedFloat.compare, hcompare, cmp_swap, signUnit, hneg]
    · exact hlt (by rw [signUnit, signUnit]; linarith)
    · exact hgt (by rw [signUnit, signUnit]; linarith)
    · simp only [UnpackedFloat.compare, hcompare, signUnit, one_mul]

section Compare

variable {x y : Float} {p q : ℚ}

theorem le_iff_isLE : x ≤ y ↔ (x.toModel.unpack.compare y.toModel.unpack).any (·.isLE) = true :=
  decide_eq_true_iff (p := x.toModel ≤ y.toModel)

theorem le_iff (hp : toRat? x = some p) (hq : toRat? y = some q) : x ≤ y ↔ p ≤ q := by
  rw [toRat?_eq_some_iff] at hp hq
  rw [le_iff_isLE, hp.compare_eq hq]
  rcases lt_trichotomy p q with h | rfl | h
  · simp [(cmp_eq_lt_iff p q).2 h, h.le]
  · simp
  · simp [(cmp_eq_gt_iff p q).2 h, h]

theorem beq_iff (hp : toRat? x = some p) (hq : toRat? y = some q) : (x == y) = true ↔ p = q := by
  rw [toRat?_eq_some_iff] at hp hq
  have hbeq : (x == y) = (x.toModel.unpack.compare y.toModel.unpack == some .eq) := rfl
  rw [hbeq, hp.compare_eq hq]
  simp

/-- Infinity is above every number. -/
theorem not_infinity_le (hx : x.toModel.unpack = .infinity .positive) (hq : toRat? y = some q) : ¬ x ≤ y := by
  rw [toRat?_eq_some_iff] at hq
  rw [le_iff_isLE, hx]
  generalize y.toModel.unpack = v at hq
  rcases hq with s | ⟨s, hm, hc, he⟩
  · exact Bool.false_ne_true
  · exact Bool.false_ne_true

theorem isFinite_of_toRat? (hp : toRat? x = some p) : x.isFinite = true := by
  have hfinite : x.isFinite = x.toModel.unpack.isFinite := rfl
  rw [toRat?_eq_some_iff] at hp
  rw [hfinite]
  generalize x.toModel.unpack = u at hp
  rcases hp with s | ⟨s, hm, hc, he⟩
  · rfl
  · rfl

end Compare

end LinearRelations.Double
