import PackedStream.Proofs.FloatFormat.Exact

namespace PackedStream

theorem roundHalfEven_le_iff {num d q : ℕ} (hd : 0 < d) (hq : Even q) :
    roundHalfEven num (2 * d) ≤ q ↔ num ≤ q * (2 * d) + d := by
  have hsplit := Nat.div_add_mod' num (2 * d)
  have hmod := Nat.mod_lt num (by omega : 0 < 2 * d)
  have heven : q % 2 = 0 := Nat.even_iff.mp hq
  have hlow := div_le_roundHalfEven num (2 * d)
  have hhigh := roundHalfEven_le num (2 * d)
  obtain hlt | heq | hgt := Nat.lt_trichotomy (num / (2 * d)) q
  · have hnext : (num / (2 * d) + 1) * (2 * d) ≤ q * (2 * d) := Nat.mul_le_mul_right _ hlt
    rw [Nat.succ_mul] at hnext
    exact iff_of_true (by omega) (by omega)
  · rw [roundHalfEven, heq]
    rw [heq] at hsplit
    split <;> omega
  · have hnext : (q + 1) * (2 * d) ≤ num / (2 * d) * (2 * d) := Nat.mul_le_mul_right _ hgt
    rw [Nat.succ_mul] at hnext
    exact iff_of_false (by omega) (by omega)

namespace FloatFormat

variable {F : FloatFormat} {w : ℕ}

/-- How far beyond `2 ^ t` an integer is still rounded to it. -/
def reach (F : FloatFormat) (t : ℕ) : ℕ :=
  if F.fractionBits < t then 2 ^ (t - (F.fractionBits + 1)) else 0

section Magnitudes

theorem nearest_binade (F : FloatFormat) {e s c : ℕ} (hc : c < 2 ^ (F.fractionBits + e)) :
    F.nearest ((2 ^ (F.fractionBits + e) + c) * 2 ^ s) 1 =
      min F.infinity ((e + s) * 2 ^ F.fractionBits +
        roundHalfEven (2 ^ (F.fractionBits + e) + c) (2 ^ e)) := by
  have hpos : 0 < 2 ^ (F.fractionBits + e) := Nat.two_pow_pos _
  have hlog : ((2 ^ (F.fractionBits + e) + c) * 2 ^ s).log2 = F.fractionBits + e + s := by
    rw [Nat.log2_eq_iff (Nat.mul_pos (by omega) (Nat.two_pow_pos s)).ne', Nat.add_right_comm _ s,
      pow_add _ _ s, pow_add _ _ s, pow_succ]
    exact ⟨Nat.mul_le_mul_right _ (by omega),
      Nat.mul_lt_mul_of_pos_right (by omega) (Nat.two_pow_pos s)⟩
  have hexcess : F.excess ((2 ^ (F.fractionBits + e) + c) * 2 ^ s) = e + s := by
    rw [excess, hlog]
    omega
  rw [nearest_eq, Nat.div_one, hexcess, Nat.one_mul, pow_add 2 e s,
    roundHalfEven_mul_right _ _ (Nat.two_pow_pos s)]

theorem nearest_two_pow_le_iff (hp : 0 < F.fractionBits) {e s n : ℕ} (he : 0 < e)
    (hfinite : (e + s) * 2 ^ F.fractionBits + 2 ^ F.fractionBits < F.infinity) :
    F.nearest (n * 2 ^ s) 1 ≤ F.nearest (2 ^ (F.fractionBits + e) * 2 ^ s) 1 ↔
      n ≤ 2 ^ (F.fractionBits + e) + 2 ^ (e - 1) := by
  have hsteps : 2 ^ e = 2 * 2 ^ (e - 1) := by rw [← pow_succ', Nat.sub_add_cancel he]
  have heven : Even (2 ^ F.fractionBits) := even_two.pow_of_ne_zero hp.ne'
  have hpos : 0 < 2 ^ (e - 1) := Nat.two_pow_pos _
  have hpow : 2 ^ (F.fractionBits + e) = 2 ^ F.fractionBits * 2 ^ e := pow_add _ _ _
  have htwo : 2 * 2 ^ e ≤ 2 ^ (F.fractionBits + e) := by
    rw [hpow]
    exact Nat.mul_le_mul_right _ (Nat.le_self_pow hp.ne' 2)
  have htop : F.nearest (2 ^ (F.fractionBits + e) * 2 ^ s) 1 =
      (e + s) * 2 ^ F.fractionBits + 2 ^ F.fractionBits := by
    have h := F.nearest_binade (s := s) (Nat.two_pow_pos (F.fractionBits + e))
    rw [Nat.add_zero, hpow, roundHalfEven_mul _ (Nat.two_pow_pos e), Nat.min_eq_right hfinite.le] at h
    rw [hpow, h]
  rw [htop]
  -- In the binade above the power of two the middle of the first step decides.
  have hmiddle {c : ℕ} (hc : c < 2 ^ (F.fractionBits + e)) :
      F.nearest ((2 ^ (F.fractionBits + e) + c) * 2 ^ s) 1 ≤
        (e + s) * 2 ^ F.fractionBits + 2 ^ F.fractionBits ↔ c ≤ 2 ^ (e - 1) := by
    rw [F.nearest_binade hc, min_le_iff, or_iff_right (by omega), Nat.add_le_add_iff_left, hsteps,
      roundHalfEven_le_iff hpos heven, ← hsteps, ← hpow, Nat.add_le_add_iff_left]
  constructor
  · intro h
    by_contra hn
    have hle : 2 ^ (F.fractionBits + e) + (2 ^ (e - 1) + 1) ≤ n := by omega
    have hnext := (hmiddle (by omega)).mp ((F.nearest_mono 1 (Nat.mul_le_mul_right _ hle)).trans h)
    omega
  · intro h
    exact (F.nearest_mono 1 (Nat.mul_le_mul_right _ h)).trans ((hmiddle (by omega)).mpr le_rfl)

end Magnitudes

section Values

variable (hw : F.magnitudeBits < w)

include hw in
theorem rank_ofInt (n : ℤ) : F.rank (F.ofInt n : BitVec w) =
    signed (n < 0) (F.nearest (n.natAbs * 2 ^ F.unitShift) 1) :=
  rank_join hw _ (F.nearest_le_infinity _ _)

include hw in
theorem value_ofInt_neg (n : ℤ) :
    F.value (F.ofInt (-n) : BitVec w) = -F.value (F.ofInt n : BitVec w) := by
  have hvalue (i : ℤ) : F.value (F.ofInt i : BitVec w) =
      (signed (i < 0) (F.units (F.nearest (i.natAbs * 2 ^ F.unitShift) 1)) : ℤ) /
        2 ^ F.unitShift := by
    rw [value, unitCount, ofInt, ofDyadic, magnitude_join hw _ (F.nearest_le_infinity _ _),
      negative_join hw _ (F.nearest_le_infinity _ _)]
    rfl
  rw [hvalue, hvalue, Int.natAbs_neg, ← neg_div, ← Int.cast_neg]
  obtain hn | rfl | hn := lt_trichotomy n 0
  · simp [signed, hn, hn.le]
  · have hzero : F.nearest 0 1 = 0 := by
      simpa using nearest_units (F := F) (m := 0) Nat.one_pos (Nat.zero_le _)
    simp [hzero]
  · simp [signed, hn, hn.le]

include hw in
theorem value_ofInt_mono {m n : ℤ} (h : m ≤ n) :
    F.value (F.ofInt m : BitVec w) ≤ F.value (F.ofInt n : BitVec w) :=
  value_ofDyadic_le hw (by simpa using h)

variable (hF : F.Wide)

section Small

variable {a n : ℤ} (ha : a.natAbs ≤ 2 ^ (F.fractionBits + 1))

include hw hF ha in
theorem value_ofInt_small : F.value (F.ofInt a : BitVec w) = a :=
  (value_ofInt hw (exact_intCast hF ha)).2

include hw hF ha in
theorem value_ofInt_le_iff (hnext : (a + 1).natAbs ≤ 2 ^ (F.fractionBits + 1)) :
    F.value (F.ofInt n : BitVec w) ≤ a ↔ n ≤ a := by
  constructor
  · intro h
    by_contra hn
    have hmono := value_ofInt_mono hw (by omega : a + 1 ≤ n)
    rw [value_ofInt_small hw hF hnext] at hmono
    have hcast : a + 1 ≤ a := by exact_mod_cast hmono.trans h
    omega
  · intro h
    rw [← value_ofInt_small hw hF ha]
    exact value_ofInt_mono hw h

include hw hF ha in
theorem le_value_ofInt_iff (hprevious : (a - 1).natAbs ≤ 2 ^ (F.fractionBits + 1)) :
    a ≤ F.value (F.ofInt n : BitVec w) ↔ a ≤ n := by
  have h := value_ofInt_le_iff hw hF (a := -a) (n := -n) (by omega) (by omega)
  rw [value_ofInt_neg hw, Int.cast_neg, neg_le_neg_iff, neg_le_neg_iff] at h
  exact h

end Small

section Powers

variable (hp : 0 < F.fractionBits) {t : ℕ} (htop : t < 2 ^ (F.exponentBits - 1)) {n : ℤ}

include hF hp htop in
theorem nearest_le_iff_reach (ht : F.fractionBits < t) (n : ℕ) :
    F.nearest (n * 2 ^ F.unitShift) 1 ≤ F.nearest (2 ^ t * 2 ^ F.unitShift) 1 ↔
      n ≤ 2 ^ t + F.reach t := by
  obtain ⟨e, he, rfl⟩ : ∃ e, 0 < e ∧ t = F.fractionBits + e :=
    ⟨t - F.fractionBits, by omega, by omega⟩
  have hunits : F.units ((e + F.unitShift) * 2 ^ F.fractionBits + 2 ^ F.fractionBits) =
      2 ^ (F.fractionBits + e) * 2 ^ F.unitShift := by
    rw [F.units_binade (.inr le_rfl) (Nat.pow_le_pow_right (by decide) (Nat.le_succ _)), ← pow_add,
      ← pow_add, Nat.add_assoc]
  have hfinite : (e + F.unitShift) * 2 ^ F.fractionBits + 2 ^ F.fractionBits < F.infinity := by
    rw [← F.units_strictMono.lt_iff_lt, hunits, units_infinity hF]
    exact Nat.mul_lt_mul_of_pos_right (Nat.pow_lt_pow_right (by decide) htop) (Nat.two_pow_pos _)
  rw [nearest_two_pow_le_iff hp he hfinite, reach, if_pos ht, Nat.add_sub_add_left]

include hw hF hp htop in
theorem value_ofInt_le_two_pow_iff :
    F.value (F.ofInt n : BitVec w) ≤ 2 ^ t ↔ n ≤ 2 ^ t + F.reach t := by
  have hpower : (2 : ℚ) ^ t = ((2 ^ t : ℕ) : ℤ) := by norm_cast
  have hinteger : (2 : ℤ) ^ t = (2 ^ t : ℕ) := by norm_cast
  rw [hpower, hinteger]
  obtain ht | ht := le_or_gt t F.fractionBits
  · have hle : 2 ^ t ≤ 2 ^ F.fractionBits := Nat.pow_le_pow_right (by decide) ht
    have hpos : 0 < 2 ^ F.fractionBits := Nat.two_pow_pos _
    have hsmall : 2 ^ t + 1 ≤ 2 ^ (F.fractionBits + 1) := by
      rw [pow_succ]
      omega
    rw [reach, if_neg (not_lt.mpr ht)]
    generalize 2 ^ t = a at hsmall ⊢
    rw [value_ofInt_le_iff hw hF (by omega) (by omega), Nat.cast_zero, add_zero]
  · have hexact : F.Exact (((2 ^ t : ℕ) : ℤ) : ℚ) := hpower ▸ exact_two_pow hF htop
    have hreach := nearest_le_iff_reach hF hp htop ht n.natAbs
    rw [← (value_ofInt hw hexact).2, value_le_value, rank_ofInt hw, rank_ofInt hw, Int.natAbs_natCast]
    generalize 2 ^ t = a at hreach ⊢
    have hsign : decide ((a : ℤ) < 0) = false := decide_eq_false (by omega)
    rw [hsign]
    by_cases hn : n < 0
    · simp only [signed, hn, decide_true, if_true, Bool.false_eq_true, if_false]
      omega
    · simp only [signed, hn, decide_false, Bool.false_eq_true, if_false]
      omega

include hw hF hp htop in
theorem neg_two_pow_le_value_ofInt_iff :
    -2 ^ t ≤ F.value (F.ofInt n : BitVec w) ↔ -2 ^ t - F.reach t ≤ n := by
  have h := value_ofInt_le_two_pow_iff hw hF hp htop (n := -n)
  rw [value_ofInt_neg hw, neg_le] at h
  rw [h]
  omega

end Powers

end Values

end FloatFormat

end PackedStream
