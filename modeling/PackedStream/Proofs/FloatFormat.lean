import PackedStream.FloatFormat
import PackedStream.Proofs.Bytes

namespace PackedStream.FloatFormat

variable (F : FloatFormat)

section Units

theorem units_binade {s q : ℕ} (hlow : s = 0 ∨ 2 ^ F.fractionBits ≤ q)
    (hhigh : q ≤ 2 ^ (F.fractionBits + 1)) :
    F.units (s * 2 ^ F.fractionBits + q) = q * 2 ^ s := by
  have hpos : 0 < pow2 F.fractionBits := Nat.two_pow_pos _
  rw [pow_succ] at hhigh
  simp only [← pow2_eq] at hlow hhigh ⊢
  unfold units
  generalize pow2 F.fractionBits = p at hlow hhigh hpos ⊢
  obtain hq | hq | hq : q < p ∨ (p ≤ q ∧ q < 2 * p) ∨ q = 2 * p := by omega
  · obtain rfl : s = 0 := by omega
    simp [Nat.div_eq_of_lt hq, pow2_eq]
  · have hsplit : s * p + q = (q - p) + p * (s + 1) := by
      rw [Nat.mul_succ, Nat.mul_comm p]
      omega
    have hdiv : (s * p + q) / p = s + 1 := by
      rw [hsplit, Nat.add_mul_div_left _ _ hpos, Nat.div_eq_of_lt (by omega), Nat.zero_add]
    have hmod : (s * p + q) % p = q - p := by
      rw [hsplit, Nat.add_mul_mod_self_left, Nat.mod_eq_of_lt (by omega)]
    have hsum : p + (q - p) = q := by omega
    simp [hdiv, hmod, hsum]
  · subst hq
    have hsplit : s * p + 2 * p = p * (s + 2) := by ring
    simp [hsplit, hpos, pow2_eq, pow_succ]
    ring

theorem exists_binade (m : ℕ) :
    ∃ s q, m = s * 2 ^ F.fractionBits + q ∧ (s = 0 ∨ 2 ^ F.fractionBits ≤ q) ∧
      q < 2 ^ (F.fractionBits + 1) := by
  have hpos : 0 < 2 ^ F.fractionBits := Nat.two_pow_pos _
  rw [pow_succ]
  generalize 2 ^ F.fractionBits = p at hpos
  have hmod := Nat.mod_lt m hpos
  have hsplit := Nat.div_add_mod' m p
  cases hdiv : m / p with
  | zero =>
    rw [hdiv] at hsplit
    exact ⟨0, m, by omega, .inl rfl, by omega⟩
  | succ s =>
    rw [hdiv, Nat.succ_mul] at hsplit
    exact ⟨s, p + m % p, by omega, .inr (by omega), by omega⟩

theorem exists_units_eq (m : ℕ) :
    ∃ s q, m = s * 2 ^ F.fractionBits + q ∧ (s = 0 ∨ 2 ^ F.fractionBits ≤ q) ∧
      q < 2 ^ (F.fractionBits + 1) ∧ F.units m = q * 2 ^ s := by
  obtain ⟨s, q, rfl, hlow, hhigh⟩ := F.exists_binade m
  exact ⟨s, q, rfl, hlow, hhigh, F.units_binade hlow hhigh.le⟩

theorem units_lt_succ (m : ℕ) : F.units m < F.units (m + 1) := by
  obtain ⟨s, q, rfl, hlow, hhigh, hunits⟩ := F.exists_units_eq m
  rw [hunits, Nat.add_assoc, F.units_binade (by omega) (by omega)]
  exact Nat.mul_lt_mul_of_pos_right (Nat.lt_succ_self q) (Nat.two_pow_pos s)

theorem units_strictMono : StrictMono F.units := strictMono_nat_of_lt_succ F.units_lt_succ

@[simp]
theorem units_zero : F.units 0 = 0 := by
  simpa using F.units_binade (s := 0) (q := 0) (.inl rfl) (Nat.zero_le _)

theorem two_pow_dvd_units {t m : ℕ} (h : (t + 1) * 2 ^ F.fractionBits ≤ m) :
    2 ^ t ∣ F.units m := by
  obtain ⟨s, q, rfl, -, hhigh, hunits⟩ := F.exists_units_eq m
  have hlt : (t + 1) * 2 ^ F.fractionBits < (s + 2) * 2 ^ F.fractionBits := by
    rw [pow_succ] at hhigh
    rw [Nat.add_mul s]
    omega
  have hle : t ≤ s := by
    have := Nat.lt_of_mul_lt_mul_right hlt
    omega
  rw [hunits]
  exact Dvd.dvd.mul_left (Nat.pow_dvd_pow 2 hle) q

def Fits (u : ℕ) : Prop := ∃ m < F.infinity, F.units m = u

variable {F}

theorem exists_units {q : ℕ} (hq : q ≤ 2 ^ (F.fractionBits + 1)) (t : ℕ) :
    ∃ m, F.units m = q * 2 ^ t := by
  induction t generalizing q with
  | zero => exact ⟨0 * 2 ^ F.fractionBits + q, F.units_binade (.inl rfl) hq⟩
  | succ t ih =>
    by_cases hlow : 2 ^ F.fractionBits ≤ q
    · exact ⟨_, F.units_binade (.inr hlow) hq⟩
    · obtain ⟨m, hm⟩ := ih (q := 2 * q) (by rw [pow_succ]; omega)
      exact ⟨m, by rw [hm, pow_succ]; ring⟩

theorem fits_iff {u : ℕ} : F.Fits u ↔ u < F.units F.infinity ∧
    ∃ q t, q ≤ 2 ^ (F.fractionBits + 1) ∧ u = q * 2 ^ t := by
  constructor
  · rintro ⟨m, hm, rfl⟩
    obtain ⟨s, q, -, -, hq, hunits⟩ := F.exists_units_eq m
    exact ⟨F.units_strictMono hm, q, s, hq.le, hunits⟩
  · rintro ⟨hlt, q, t, hq, rfl⟩
    obtain ⟨m, hm⟩ := exists_units hq t
    exact ⟨m, F.units_strictMono.lt_iff_lt.mp (hm ▸ hlt), hm⟩

theorem Fits.of_mul_two_pow {u k : ℕ} (h : F.Fits (u * 2 ^ k)) : F.Fits u := by
  obtain ⟨hlt, q, t, hq, hu⟩ := fits_iff.mp h
  have hle : u ≤ u * 2 ^ k := Nat.le_mul_of_pos_right u (Nat.two_pow_pos k)
  refine fits_iff.mpr ⟨by omega, ?_⟩
  by_cases hkt : k ≤ t
  · refine ⟨q, t - k, hq, ?_⟩
    apply Nat.mul_right_cancel (Nat.two_pow_pos k)
    rw [hu, Nat.mul_assoc, ← pow_add, Nat.sub_add_cancel hkt]
  · refine ⟨u, 0, le_trans ?_ hq, by simp⟩
    have hq' : u * 2 ^ (k - t) = q := by
      apply Nat.mul_right_cancel (Nat.two_pow_pos t)
      rw [← hu, Nat.mul_assoc, ← pow_add, Nat.sub_add_cancel (by omega)]
    exact hq' ▸ Nat.le_mul_of_pos_right u (Nat.two_pow_pos _)

end Units

def signed (negative : Bool) (n : ℕ) : ℤ := if negative then -n else n

@[simp]
theorem natAbs_signed (b : Bool) (n : ℕ) : (signed b n).natAbs = n := by
  cases b <;> simp [signed]

@[simp]
theorem signed_zero (b : Bool) : signed b 0 = 0 := by
  cases b <;> rfl

theorem signed_mul (b : Bool) (m n : ℕ) : signed b (m * n) = signed b m * n := by
  cases b <;> simp [signed]

theorem signed_natAbs (i : ℤ) : signed (i < 0) i.natAbs = i := by
  by_cases h : i < 0
  · rw [signed, decide_eq_true h, if_pos rfl, Int.ofNat_natAbs_of_nonpos h.le, neg_neg]
  · rw [signed, decide_eq_false h, if_neg Bool.false_ne_true, Int.natAbs_of_nonneg (not_lt.mp h)]

theorem signed_le_signed {g : ℕ → ℕ} (hg : StrictMono g) (hzero : g 0 = 0) (b c : Bool) (m n : ℕ) :
    signed b (g m) ≤ signed c (g n) ↔ signed b m ≤ signed c n := by
  have hmn : g m ≤ g n ↔ m ≤ n := hg.le_iff_le
  have hnm : g n ≤ g m ↔ n ≤ m := hg.le_iff_le
  have hm : g m ≤ g 0 ↔ m ≤ 0 := hg.le_iff_le
  have hn : g n ≤ g 0 ↔ n ≤ 0 := hg.le_iff_le
  cases b <;> cases c <;> simp only [signed, Bool.false_eq_true, if_true, if_false] <;> omega

theorem signed_mono {g : ℕ → ℕ} (hg : Monotone g) (hzero : g 0 = 0) {b c : Bool} {m n : ℕ}
    (h : signed b m ≤ signed c n) : signed b (g m) ≤ signed c (g n) := by
  have hmn : m ≤ n → g m ≤ g n := fun hle => hg hle
  have hnm : n ≤ m → g n ≤ g m := fun hle => hg hle
  have hm : m ≤ 0 → g m ≤ g 0 := fun hle => hg hle
  have hn : n ≤ 0 → g n ≤ g 0 := fun hle => hg hle
  cases b <;> cases c <;> simp only [signed, Bool.false_eq_true, if_true, if_false] at h ⊢ <;> omega

section Patterns

variable {w : ℕ} (x y : BitVec w)

def unitCount : ℤ := signed (F.negative x) (F.units (F.magnitude x))

def value : ℚ := F.unitCount x / 2 ^ F.unitShift

variable {F x y}

theorem rank_eq : F.rank x = signed (F.negative x) (F.magnitude x) := rfl

theorem value_le_value : F.value x ≤ F.value y ↔ F.rank x ≤ F.rank y := by
  rw [value, value, div_le_div_iff_of_pos_right (by positivity), Int.cast_le]
  exact signed_le_signed F.units_strictMono F.units_zero _ _ _ _

theorem value_nonneg_iff : 0 ≤ F.value x ↔ 0 ≤ F.rank x := by
  have h := signed_le_signed F.units_strictMono F.units_zero false (F.negative x) 0 (F.magnitude x)
  rw [units_zero, signed_zero] at h
  rw [value, le_div_iff₀ (by positivity), zero_mul, Int.cast_nonneg_iff]
  exact h

theorem toNat_eq (hw : w = F.magnitudeBits + 1) (x : BitVec w) :
    x.toNat = (if F.negative x = true then 2 ^ F.magnitudeBits else 0) + F.magnitude x := by
  have hlt : x.toNat < 2 ^ F.magnitudeBits * 2 := by
    rw [← pow_succ, ← hw]
    exact x.isLt
  have hdiv : x.toNat / 2 ^ F.magnitudeBits < 2 := Nat.div_lt_of_lt_mul hlt
  have hsplit := Nat.div_add_mod x.toNat (2 ^ F.magnitudeBits)
  have hbit : F.negative x = decide (x.toNat / 2 ^ F.magnitudeBits % 2 = 1) :=
    Nat.testBit_eq_decide_div_mod_eq
  rw [magnitude, hbit, pow2_eq]
  obtain h | h := Nat.le_one_iff_eq_zero_or_eq_one.mp (Nat.le_of_lt_succ hdiv)
  · rw [h] at hsplit ⊢
    simpa using hsplit.symm
  · rw [h] at hsplit ⊢
    simpa using hsplit.symm

theorem eq_of_value_eq (hw : w = F.magnitudeBits + 1) (h : F.value x = F.value y)
    (hne : F.value x ≠ 0) : x = y := by
  have hrank : F.rank x = F.rank y := le_antisymm (value_le_value.mp h.le) (value_le_value.mp h.ge)
  have hmagnitude : F.magnitude x ≠ 0 := by
    intro hzero
    exact hne (by simp [value, unitCount, hzero])
  rw [rank_eq, rank_eq] at hrank
  apply BitVec.eq_of_toNat_eq
  rw [toNat_eq hw x, toNat_eq hw y]
  cases hx : F.negative x <;> cases hy : F.negative y <;>
    simp only [hx, hy, signed, Bool.false_eq_true, if_true, if_false] at hrank ⊢ <;> omega

theorem value_eq_div_iff {n : ℤ} {k : ℕ} :
    F.value x = n / 2 ^ k ↔ F.unitCount x * 2 ^ k = n * 2 ^ F.unitShift := by
  rw [value, div_eq_div_iff (by positivity) (by positivity)]
  exact_mod_cast Iff.rfl

theorem value_eq_intCast_iff {n : ℤ} : F.value x = n ↔ F.unitCount x = n * 2 ^ F.unitShift := by
  simpa using value_eq_div_iff (x := x) (n := n) (k := 0)

theorem infinity_lt (F : FloatFormat) : F.infinity < 2 ^ F.magnitudeBits := by
  have hpos : 0 < 2 ^ F.exponentBits := Nat.two_pow_pos _
  rw [infinity, magnitudeBits, pow_add, pow2_eq, pow2_eq]
  exact Nat.mul_lt_mul_of_pos_right (by omega) (Nat.two_pow_pos _)

section Join

variable (hw : F.magnitudeBits < w) {m : ℕ} (hm : m < F.infinity)

include hw in
theorem toNat_join (b : Bool) (hm : m ≤ F.infinity) :
    (F.join b m : BitVec w).toNat = (if b then 2 ^ F.magnitudeBits else 0) + m := by
  have hlt : m < 2 ^ F.magnitudeBits := lt_of_le_of_lt hm F.infinity_lt
  have hpow : 2 ^ (F.magnitudeBits + 1) ≤ 2 ^ w := Nat.pow_le_pow_right (by decide) hw
  rw [pow_succ] at hpow
  rw [join, BitVec.toNat_ofNat, pow2_eq, Nat.mod_eq_of_lt]
  cases b <;> simp <;> omega

include hw in
theorem magnitude_join (b : Bool) (hm : m ≤ F.infinity) :
    F.magnitude (F.join b m : BitVec w) = m := by
  have hlt : m < 2 ^ F.magnitudeBits := lt_of_le_of_lt hm F.infinity_lt
  rw [magnitude, toNat_join hw b hm, pow2_eq]
  cases b <;> simp [Nat.mod_eq_of_lt hlt]

include hw in
theorem negative_join (b : Bool) (hm : m ≤ F.infinity) :
    F.negative (F.join b m : BitVec w) = b := by
  have hlt : m < 2 ^ F.magnitudeBits := lt_of_le_of_lt hm F.infinity_lt
  rw [negative, BitVec.getLsbD, toNat_join hw b hm]
  cases b
  · simp [Nat.testBit_lt_two_pow hlt]
  · simp [Nat.testBit_two_pow_add_eq, Nat.testBit_lt_two_pow hlt]

include hw in
theorem rank_join (b : Bool) (hm : m ≤ F.infinity) :
    F.rank (F.join b m : BitVec w) = signed b m := by
  rw [rank_eq, magnitude_join hw b hm, negative_join hw b hm]

include hw hm in
theorem isFinite_join (b : Bool) : F.isFinite (F.join b m : BitVec w) = true := by
  rw [isFinite, magnitude_join hw b hm.le]
  exact decide_eq_true hm

include hw hm in
theorem unitCount_join (b : Bool) :
    F.unitCount (F.join b m : BitVec w) = signed b (F.units m) := by
  rw [unitCount, magnitude_join hw b hm.le, negative_join hw b hm.le]

end Join

theorem fits_magnitude (hx : F.isFinite x = true) : F.Fits (F.units (F.magnitude x)) :=
  ⟨F.magnitude x, of_decide_eq_true hx, rfl⟩

theorem natAbs_unitCount (x : BitVec w) :
    (F.unitCount x).natAbs = F.units (F.magnitude x) := natAbs_signed _ _

theorem isNaN_of_finite (hx : F.isFinite x = true) : F.isNaN x = false := by
  have hlt : F.magnitude x < F.infinity := of_decide_eq_true hx
  exact decide_eq_false (by omega)

theorem le_iff (hx : F.isFinite x = true) (hy : F.isFinite y = true) :
    F.le x y = true ↔ F.value x ≤ F.value y := by
  simp [le, isNaN_of_finite hx, isNaN_of_finite hy, value_le_value]

theorem isNegative_iff (hx : F.isFinite x = true) : F.isNegative x = true ↔ F.value x < 0 := by
  rw [isNegative, isNaN_of_finite hx, Bool.not_false, Bool.true_and, decide_eq_true_iff, ← not_le,
    ← not_le, value_nonneg_iff]

theorem isFinite_iff_rank : F.isFinite x = true ↔ (F.rank x).natAbs < F.infinity := by
  rw [isFinite, decide_eq_true_iff, rank_eq, natAbs_signed]

theorem isFinite_of_le {a b : BitVec w} (ha : F.isFinite a = true) (hb : F.isFinite b = true)
    (hax : F.le a x = true) (hxb : F.le x b = true) : F.isFinite x = true := by
  rw [isFinite_iff_rank] at ha hb ⊢
  simp only [le, Bool.and_eq_true, decide_eq_true_iff] at hax hxb
  omega

theorem isFinite_of_value_le {a b : BitVec w} (ha : F.isFinite a = true) (hb : F.isFinite b = true)
    (hax : F.value a ≤ F.value x) (hxb : F.value x ≤ F.value b) : F.isFinite x = true := by
  rw [isFinite_iff_rank] at ha hb ⊢
  rw [value_le_value] at hax hxb
  omega

section Integers

theorem integerPart_eq_tdiv (x : BitVec w) :
    F.integerPart x = (F.unitCount x).tdiv (2 ^ F.unitShift : ℕ) := by
  rw [integerPart, unitCount, pow2_eq]
  cases F.negative x
  · simp only [signed, Bool.false_eq_true, if_false, Int.ofNat_tdiv]
  · simp only [signed, if_true, Int.neg_tdiv, Int.ofNat_tdiv]

theorem integerPart_of_value_eq {n : ℤ} (h : F.value x = n) : F.integerPart x = n := by
  rw [integerPart_eq_tdiv, value_eq_intCast_iff.mp h]
  push_cast
  exact Int.mul_tdiv_cancel n (by positivity)

theorem isIntegral_iff :
    F.isIntegral x = true ↔ F.isFinite x = true ∧ ∃ n : ℤ, F.value x = n := by
  have hdvd : (F.units (F.magnitude x) % pow2 F.unitShift == 0) = true ↔
      ((2 ^ F.unitShift : ℕ) : ℤ) ∣ F.unitCount x := by
    rw [beq_iff_eq, pow2_eq, Int.natCast_dvd, natAbs_unitCount, Nat.dvd_iff_mod_eq_zero]
  rw [isIntegral, Bool.and_eq_true, hdvd]
  apply and_congr_right'
  constructor
  · rintro ⟨n, hn⟩
    refine ⟨n, value_eq_intCast_iff.mpr ?_⟩
    rw [hn]
    push_cast
    ring
  · rintro ⟨n, hn⟩
    refine ⟨n, ?_⟩
    rw [value_eq_intCast_iff.mp hn]
    push_cast
    ring

theorem truncateWithin_finite (hx : F.isFinite x = true) (low high : ℤ) :
    F.truncateWithin x low high = max low (min high (F.integerPart x)) := by
  simp [truncateWithin, isNaN_of_finite hx, hx]

theorem integerPart_nonpos (h : F.value x ≤ 0) : F.integerPart x ≤ 0 := by
  have hunits : F.unitCount x ≤ 0 := by
    rw [value, div_le_iff₀ (by positivity), zero_mul] at h
    exact_mod_cast h
  have hneg : 0 ≤ (-F.unitCount x).tdiv (2 ^ F.unitShift : ℕ) :=
    Int.tdiv_nonneg (by omega) (by positivity)
  rw [Int.neg_tdiv] at hneg
  rw [integerPart_eq_tdiv]
  omega

theorem integerPart_nonneg (h : 0 ≤ F.value x) : 0 ≤ F.integerPart x := by
  have hunits : 0 ≤ F.unitCount x := by
    rw [value, le_div_iff₀ (by positivity), zero_mul] at h
    exact_mod_cast h
  rw [integerPart_eq_tdiv]
  exact Int.tdiv_nonneg hunits (by positivity)

end Integers

end Patterns

end PackedStream.FloatFormat
