import PackedStream.Proofs.FloatFormat.Nearest

namespace PackedStream.FloatFormat

variable {F : FloatFormat} {w : ℕ} {x y : BitVec w} {v : ℚ}

def Exact (F : FloatFormat) (v : ℚ) : Prop := ∃ u, F.Fits u ∧ |v| * 2 ^ F.unitShift = u

def bound (F : FloatFormat) : ℚ := 2 ^ 2 ^ (F.exponentBits - 1)

structure Wide (F : FloatFormat) : Prop where
  exponentBits_gt : 1 < F.exponentBits
  fractionBits_lt : F.fractionBits + 1 < 2 ^ (F.exponentBits - 1)

theorem wide_binary32 : binary32.Wide := ⟨by decide, by decide⟩

theorem wide_binary64 : binary64.Wide := ⟨by decide, by decide⟩

theorem magnitudeBits_binary32 : binary32.magnitudeBits < 32 := by decide

theorem magnitudeBits_binary64 : binary64.magnitudeBits < 64 := by decide

theorem bound_binary32 : binary32.bound = 2 ^ 128 := rfl

theorem bound_binary64 : binary64.bound = 2 ^ 1024 := rfl

theorem abs_lt_bound_binary64 (hlow : -2 ^ 64 ≤ v) (hhigh : v ≤ 2 ^ 64) : |v| < binary64.bound := by
  rw [bound_binary64]
  exact lt_of_le_of_lt (abs_le.mpr ⟨hlow, hhigh⟩) (pow_lt_pow_right₀ (by norm_num) (by decide))

section Exact

theorem abs_value (x : BitVec w) : |F.value x| * 2 ^ F.unitShift = F.units (F.magnitude x) := by
  rw [value, abs_div, abs_of_pos (by positivity : (0 : ℚ) < 2 ^ F.unitShift),
    div_mul_cancel₀ _ (by positivity), ← Int.cast_abs, Int.abs_eq_natAbs, natAbs_unitCount]
  rfl

theorem exact_value (hx : F.isFinite x = true) : F.Exact (F.value x) :=
  ⟨_, fits_magnitude hx, abs_value x⟩

theorem exact_iff_exists (hw : F.magnitudeBits < w) :
    F.Exact v ↔ ∃ x : BitVec w, F.isFinite x = true ∧ F.value x = v := by
  constructor
  · rintro ⟨_, ⟨m, hm, rfl⟩, hv⟩
    refine ⟨F.join (v < 0) m, isFinite_join hw hm _, ?_⟩
    rw [value, unitCount_join hw hm, div_eq_iff (by positivity)]
    by_cases h : v < 0
    · rw [abs_of_neg h] at hv
      simp [signed, h, ← hv]
    · rw [abs_of_nonneg (not_lt.mp h)] at hv
      simp [signed, h, hv]
  · rintro ⟨x, hx, rfl⟩
    exact exact_value hx

section Bounds

variable (hF : F.Wide)

include hF in
theorem units_infinity : F.units F.infinity = 2 ^ 2 ^ (F.exponentBits - 1) * 2 ^ F.unitShift := by
  have hgt := hF.exponentBits_gt
  have hpow : 2 ^ F.exponentBits = 2 ^ (F.exponentBits - 1) * 2 := by
    rw [← pow_succ, Nat.sub_add_cancel hgt.le]
  have hge : 2 ^ 1 ≤ 2 ^ (F.exponentBits - 1) := Nat.pow_le_pow_right (by decide) (by omega)
  have hsplit : F.infinity = (2 ^ F.exponentBits - 2) * 2 ^ F.fractionBits + 2 ^ F.fractionBits := by
    rw [infinity, pow2_eq, pow2_eq, ← Nat.succ_mul]
    congr 1
    omega
  rw [hsplit, F.units_binade (.inr le_rfl) (Nat.pow_le_pow_right (by decide) (by omega)), ← pow_add,
    ← pow_add, unitShift, pow2_eq]
  congr 1
  omega

include hF in
theorem Exact.lt_bound (h : F.Exact v) : |v| < F.bound := by
  obtain ⟨u, hu, hv⟩ := h
  have hlt : u < 2 ^ 2 ^ (F.exponentBits - 1) * 2 ^ F.unitShift :=
    units_infinity hF ▸ (fits_iff.mp hu).1
  have hcast : (u : ℚ) < F.bound * 2 ^ F.unitShift := by
    rw [bound]
    exact_mod_cast hlt
  rw [← hv] at hcast
  exact lt_of_mul_lt_mul_right hcast (by positivity)

theorem Exact.exists_steps (h : F.Exact v) :
    ∃ (n : ℤ) (t : ℕ), n.natAbs ≤ 2 ^ (F.fractionBits + 1) ∧ v * 2 ^ F.unitShift = n * 2 ^ t := by
  obtain ⟨u, hu, hv⟩ := h
  obtain ⟨-, q, t, hq, rfl⟩ := fits_iff.mp hu
  push_cast at hv
  obtain hpos | hneg := le_or_gt 0 v
  · rw [abs_of_nonneg hpos] at hv
    exact ⟨q, t, hq, by simpa using hv⟩
  · rw [abs_of_neg hneg] at hv
    exact ⟨-q, t, by simpa using hq, by push_cast; linarith⟩

include hF in
theorem exact_of_steps {n : ℤ} {t : ℕ} (hn : n.natAbs ≤ 2 ^ (F.fractionBits + 1))
    (hv : v * 2 ^ F.unitShift = n * 2 ^ t) (hlt : |v| < F.bound) : F.Exact v := by
  have hunits : |v| * 2 ^ F.unitShift = (n.natAbs * 2 ^ t : ℕ) := by
    rw [← abs_of_pos (by positivity : (0 : ℚ) < 2 ^ F.unitShift), ← abs_mul, hv, abs_mul,
      abs_of_pos (by positivity : (0 : ℚ) < 2 ^ t)]
    rw [Nat.cast_mul, Nat.cast_pow, Nat.cast_natAbs, Int.cast_abs, Nat.cast_ofNat]
  refine ⟨_, fits_iff.mpr ⟨?_, n.natAbs, t, hn, rfl⟩, hunits⟩
  have hcast := mul_lt_mul_of_pos_right hlt (by positivity : (0 : ℚ) < 2 ^ F.unitShift)
  rw [hunits, bound] at hcast
  rw [units_infinity hF]
  exact_mod_cast hcast

include hF in
theorem Exact.mul_two_pow {k : ℕ} (h : F.Exact v) (hlt : |v * 2 ^ k| < F.bound) :
    F.Exact (v * 2 ^ k) := by
  obtain ⟨n, t, hn, hv⟩ := h.exists_steps
  refine exact_of_steps hF hn (t := t + k) ?_ hlt
  rw [mul_right_comm, hv, pow_add, mul_assoc]

include hF in
theorem exact_intCast {n : ℤ} (hn : n.natAbs ≤ 2 ^ (F.fractionBits + 1)) : F.Exact n := by
  refine exact_of_steps hF hn rfl ?_
  have hpow : (2 : ℚ) ^ (F.fractionBits + 1) < F.bound :=
    pow_lt_pow_right₀ (by norm_num) hF.fractionBits_lt
  refine lt_of_le_of_lt ?_ hpow
  rw [← Int.cast_abs, ← Int.natCast_natAbs, Int.cast_natCast]
  exact_mod_cast hn

include hF in
theorem exact_div_two_pow {n : ℤ} {k : ℕ} (hn : n.natAbs ≤ 2 ^ (F.fractionBits + 1))
    (hk : k ≤ F.unitShift) : F.Exact ((n : ℚ) / 2 ^ k) := by
  refine exact_of_steps hF hn (t := F.unitShift - k) ?_ ?_
  · rw [div_mul_eq_mul_div, div_eq_iff (by positivity), mul_assoc, ← pow_add,
      Nat.sub_add_cancel hk]
  · rw [abs_div, abs_of_pos (by positivity : (0 : ℚ) < 2 ^ k)]
    refine lt_of_le_of_lt (div_le_self (abs_nonneg _) (one_le_pow₀ (by norm_num))) ?_
    exact (exact_intCast hF hn).lt_bound hF

include hF in
theorem exact_two_pow_div {t k : ℕ} (ht : t < 2 ^ (F.exponentBits - 1)) (hk : k ≤ F.unitShift) :
    F.Exact (2 ^ t / 2 ^ k) := by
  refine exact_of_steps hF (n := 1) (t := t + (F.unitShift - k)) (Nat.one_le_two_pow) ?_ ?_
  · rw [Int.cast_one, one_mul, div_mul_eq_mul_div, div_eq_iff (by positivity), ← pow_add, ← pow_add,
      Nat.add_assoc, Nat.sub_add_cancel hk]
  · rw [abs_of_pos (by positivity)]
    refine lt_of_le_of_lt (div_le_self (by positivity) (one_le_pow₀ (by norm_num))) ?_
    exact pow_lt_pow_right₀ (by norm_num) ht

include hF in
theorem exact_two_pow {t : ℕ} (ht : t < 2 ^ (F.exponentBits - 1)) : F.Exact (2 ^ t) := by
  simpa using exact_two_pow_div hF ht (Nat.zero_le _)

end Bounds

theorem not_exact_of_odd {n : ℤ} (hodd : Odd n) (hlt : 2 ^ (F.fractionBits + 1) < n.natAbs) :
    ¬ F.Exact n := by
  intro h
  obtain ⟨q, t, hq, hv⟩ := h.exists_steps
  have hsteps : n * 2 ^ F.unitShift = q * 2 ^ t := by exact_mod_cast hv
  obtain hle | hgt := le_or_gt t F.unitShift
  · have hqn : n * 2 ^ (F.unitShift - t) = q := by
      apply mul_right_cancel₀ (by positivity : (2 : ℤ) ^ t ≠ 0)
      rw [mul_assoc, ← pow_add, Nat.sub_add_cancel hle, hsteps]
    have hnq : n.natAbs ≤ q.natAbs := by
      rw [← hqn, Int.natAbs_mul, Int.natAbs_pow]
      exact Nat.le_mul_of_pos_right _ (by positivity)
    omega
  · have hnq : n = q * 2 ^ (t - F.unitShift) := by
      apply mul_right_cancel₀ (by positivity : (2 : ℤ) ^ F.unitShift ≠ 0)
      rw [mul_assoc, ← pow_add, Nat.sub_add_cancel hgt.le, hsteps]
    have heven : Even n := by
      rw [hnq]
      exact (even_two.pow_of_ne_zero (by omega)).mul_left q
    exact Int.not_even_iff_odd.mpr hodd heven

theorem Exact.neg (h : F.Exact v) : F.Exact (-v) := by
  simpa [Exact] using h

theorem Exact.div_two_pow {n : ℤ} {k : ℕ} (h : F.Exact v)
    (hv : v / 2 ^ k * 2 ^ F.unitShift = n) : F.Exact (v / 2 ^ k) := by
  obtain ⟨u, hu, huv⟩ := h
  have habs : |v / 2 ^ k| * 2 ^ F.unitShift = n.natAbs := by
    rw [← abs_of_pos (by positivity : (0 : ℚ) < 2 ^ F.unitShift), ← abs_mul, hv, Nat.cast_natAbs,
      Int.cast_abs]
  have hscaled : u = n.natAbs * 2 ^ k := by
    rw [abs_div, abs_of_pos (by positivity : (0 : ℚ) < 2 ^ k), div_mul_eq_mul_div, huv,
      div_eq_iff (by positivity)] at habs
    exact_mod_cast habs
  exact ⟨n.natAbs, Fits.of_mul_two_pow (hscaled ▸ hu), habs⟩

theorem Exact.binary64 (h : binary32.Exact v) : binary64.Exact v := by
  obtain ⟨n, t, hn, hv⟩ := h.exists_steps
  refine exact_of_steps wide_binary64 (t := t + 925)
    (le_trans hn (Nat.pow_le_pow_right (by decide) (by decide))) ?_ ?_
  · rw [pow_add, ← mul_assoc, ← hv, mul_assoc, ← pow_add]
    rfl
  · refine lt_trans (h.lt_bound wide_binary32) ?_
    rw [bound_binary32, bound_binary64]
    exact pow_lt_pow_right₀ (by norm_num) (by decide)

end Exact

section Rounding

variable (hw : F.magnitudeBits < w)

theorem value_mul_two_pow (x : BitVec w) : F.value x * 2 ^ F.unitShift = F.unitCount x :=
  div_mul_cancel₀ _ (by positivity)

include hw in
theorem value_join_nearest {b : Bool} {num den : ℕ} (hden : 0 < den) (hv : F.Exact v)
    (h : v * (den * 2 ^ F.unitShift) = signed b num) :
    F.isFinite (F.join b (F.nearest num den) : BitVec w) = true ∧
      F.value (F.join b (F.nearest num den) : BitVec w) = v := by
  obtain ⟨_, ⟨m, hm, rfl⟩, hv⟩ := hv
  have hpos : (0 : ℚ) < den * 2 ^ F.unitShift := by positivity
  have hnum : F.units m * den = num := by
    have habs : |v| * (den * 2 ^ F.unitShift) = num := by
      rw [← abs_of_pos hpos, ← abs_mul, h, ← Int.cast_abs, Int.abs_eq_natAbs, natAbs_signed]
      rfl
    rw [mul_left_comm, hv, mul_comm] at habs
    exact_mod_cast habs
  rw [← hnum, nearest_units hden hm.le]
  refine ⟨isFinite_join hw hm b, ?_⟩
  have hsigned : v * (den * 2 ^ F.unitShift) = signed b (F.units m) * den := by
    rw [h, ← hnum, signed_mul]
    push_cast
    rfl
  rw [value, unitCount_join hw hm, div_eq_iff (by positivity)]
  apply mul_right_cancel₀ (by positivity : (den : ℚ) ≠ 0)
  rw [← hsigned]
  ring

include hw in
theorem value_ofDyadic {n : ℤ} {k : ℕ} (h : F.Exact (n / 2 ^ k)) :
    F.isFinite (F.ofDyadic n k : BitVec w) = true ∧
      F.value (F.ofDyadic n k : BitVec w) = n / 2 ^ k := by
  apply value_join_nearest hw (Nat.two_pow_pos k) h
  rw [pow2_eq, signed_mul, signed_natAbs]
  push_cast
  field_simp

include hw in
theorem value_ofInt {n : ℤ} (h : F.Exact n) :
    F.isFinite (F.ofInt n : BitVec w) = true ∧ F.value (F.ofInt n : BitVec w) = n := by
  simpa [ofInt] using value_ofDyadic hw (n := n) (k := 0) (by simpa using h)

include hw in
theorem value_scaleUp {k : ℕ} (hx : F.isFinite x = true) (h : F.Exact (F.value x * 2 ^ k)) :
    F.isFinite (F.scaleUp k x) = true ∧ F.value (F.scaleUp k x) = F.value x * 2 ^ k := by
  rw [scaleUp, if_pos hx]
  apply value_join_nearest hw Nat.one_pos h
  rw [pow2_eq, signed_mul, Nat.cast_one, one_mul, mul_right_comm, value_mul_two_pow]
  push_cast
  rfl

include hw in
theorem value_scaleDown {k : ℕ} (hx : F.isFinite x = true) (h : F.Exact (F.value x / 2 ^ k)) :
    F.isFinite (F.scaleDown k x) = true ∧ F.value (F.scaleDown k x) = F.value x / 2 ^ k := by
  rw [scaleDown, if_pos hx]
  apply value_join_nearest hw (Nat.two_pow_pos k) h
  rw [← mul_assoc]
  push_cast
  rw [div_mul_cancel₀ _ (by positivity), value_mul_two_pow]
  rfl

theorem value_convert {G : FloatFormat} {n : ℕ} (hn : G.magnitudeBits < n)
    (hx : F.isFinite x = true) (h : G.Exact (F.value x)) :
    G.isFinite (F.convert G x : BitVec n) = true ∧
      G.value (F.convert G x : BitVec n) = F.value x := by
  rw [convert]
  simp only [isNaN_of_finite hx, hx, Bool.false_eq_true, if_true, if_false]
  apply value_join_nearest hn (Nat.two_pow_pos _) h
  rw [pow2_eq, signed_mul]
  push_cast
  rw [← mul_assoc, value_mul_two_pow]
  rfl

theorem isFinite_convert {G : FloatFormat} {n : ℕ} (hn : G.magnitudeBits < n)
    (hG : 0 < G.infinity) (hx : F.isFinite x = true)
    (h : |F.value x| * 2 ^ G.unitShift ≤ G.units (G.infinity - 1)) :
    G.isFinite (F.convert G x : BitVec n) = true := by
  have hunits : F.units (F.magnitude x) * 2 ^ G.unitShift ≤
      G.units (G.infinity - 1) * 2 ^ F.unitShift := by
    have hscaled := mul_le_mul_of_nonneg_right h (by positivity : (0 : ℚ) ≤ 2 ^ F.unitShift)
    rw [mul_right_comm, abs_value] at hscaled
    exact_mod_cast hscaled
  have hnearest := nearest_le (F := G) (Nat.two_pow_pos F.unitShift) (Nat.sub_le _ 1) hunits
  rw [convert]
  simp only [isNaN_of_finite hx, hx, Bool.false_eq_true, if_true, if_false]
  rw [pow2_eq, pow2_eq]
  exact isFinite_join hn (by omega) _

include hw in
theorem value_ofDyadic_le {m n : ℤ} {j k : ℕ} (h : (m : ℚ) / 2 ^ j ≤ n / 2 ^ k) :
    F.value (F.ofDyadic m j : BitVec w) ≤ F.value (F.ofDyadic n k : BitVec w) := by
  have hcross : m * (2 ^ k : ℕ) ≤ n * (2 ^ j : ℕ) := by
    rw [div_le_div_iff₀ (by positivity) (by positivity)] at h
    exact_mod_cast h
  have hsigned : signed (m < 0) (m.natAbs * 2 ^ F.unitShift * 2 ^ k) ≤
      signed (n < 0) (n.natAbs * 2 ^ F.unitShift * 2 ^ j) := by
    rw [Nat.mul_right_comm, signed_mul, signed_mul, signed_natAbs, Nat.mul_right_comm, signed_mul,
      signed_mul, signed_natAbs]
    exact mul_le_mul_of_nonneg_right hcross (by positivity)
  have hzero : F.nearest 0 (2 ^ j * 2 ^ k) = 0 := by
    simpa using nearest_units (F := F) (m := 0) (by positivity : 0 < 2 ^ j * 2 ^ k) (Nat.zero_le _)
  have hmono := signed_mono (F.nearest_mono (2 ^ j * 2 ^ k)) hzero hsigned
  rw [F.nearest_mul_right _ _ (Nat.two_pow_pos k), Nat.mul_comm (2 ^ j),
    F.nearest_mul_right _ _ (Nat.two_pow_pos j)] at hmono
  rw [value_le_value, ofDyadic, ofDyadic, rank_join hw _ (F.nearest_le_infinity _ _),
    rank_join hw _ (F.nearest_le_infinity _ _)]
  exact hmono

include hw in
theorem value_ofDyadic_bounds (hF : F.Wide) {n : ℤ} {k t : ℕ} (ht : t < 2 ^ (F.exponentBits - 1))
    (hlow : -2 ^ t ≤ (n : ℚ) / 2 ^ k) (hhigh : (n : ℚ) / 2 ^ k ≤ 2 ^ t) :
    F.isFinite (F.ofDyadic n k : BitVec w) = true ∧ -2 ^ t ≤ F.value (F.ofDyadic n k : BitVec w) ∧
      F.value (F.ofDyadic n k : BitVec w) ≤ 2 ^ t := by
  have hexact : F.Exact ((2 ^ t : ℤ) / 2 ^ 0) := by
    simpa using exact_two_pow hF ht
  have hexact' : F.Exact ((-2 ^ t : ℤ) / 2 ^ 0) := by
    simpa using (exact_two_pow hF ht).neg
  obtain ⟨hfinite, htop⟩ := value_ofDyadic hw hexact
  obtain ⟨hfinite', hbottom⟩ := value_ofDyadic hw hexact'
  have hle : F.value (F.ofDyadic n k : BitVec w) ≤ F.value (F.ofDyadic (2 ^ t) 0 : BitVec w) :=
    value_ofDyadic_le hw (by simpa using hhigh)
  have hge : F.value (F.ofDyadic (-2 ^ t) 0 : BitVec w) ≤ F.value (F.ofDyadic n k : BitVec w) :=
    value_ofDyadic_le hw (by simpa using hlow)
  exact ⟨isFinite_of_value_le hfinite' hfinite hge hle, by simpa [hbottom] using hge,
    by simpa [htop] using hle⟩

include hw in
theorem value_ofInt_bounds (hF : F.Wide) {n : ℤ} {t : ℕ} (ht : t < 2 ^ (F.exponentBits - 1))
    (hlow : -2 ^ t ≤ n) (hhigh : n ≤ 2 ^ t) :
    F.isFinite (F.ofInt n : BitVec w) = true ∧ -2 ^ t ≤ F.value (F.ofInt n : BitVec w) ∧
      F.value (F.ofInt n : BitVec w) ≤ 2 ^ t := by
  apply value_ofDyadic_bounds hw hF ht
  · simpa using (Int.cast_le (R := ℚ)).mpr hlow
  · simpa using (Int.cast_le (R := ℚ)).mpr hhigh

theorem ofDyadic_mul_two_pow (F : FloatFormat) (n : ℤ) (k c : ℕ) :
    (F.ofDyadic (n * 2 ^ c) (k + c) : BitVec w) = F.ofDyadic n k := by
  have hsign : decide (n * 2 ^ c < 0) = decide (n < 0) :=
    decide_eq_decide.mpr (by simp [mul_neg_iff, pow_pos])
  have hnum : (n * 2 ^ c).natAbs * pow2 F.unitShift = n.natAbs * pow2 F.unitShift * 2 ^ c := by
    rw [Int.natAbs_mul, Int.natAbs_pow, Nat.mul_right_comm]
    rfl
  rw [ofDyadic, hsign, hnum, pow2_eq (k + c), pow_add, F.nearest_mul_right _ _ (Nat.two_pow_pos c),
    ofDyadic, pow2_eq k]

include hw in
theorem value_ofDyadic_pred (hF : F.Wide) {t k : ℕ} (ht : F.fractionBits + 1 < t)
    (htop : t < 2 ^ (F.exponentBits - 1)) (hk : k ≤ F.unitShift) :
    F.isFinite (F.ofDyadic (2 ^ t - 1) k : BitVec w) = true ∧
      F.value (F.ofDyadic (2 ^ t - 1) k : BitVec w) = 2 ^ t / 2 ^ k := by
  obtain ⟨e, he, rfl⟩ : ∃ e, 0 < e ∧ t = F.fractionBits + 1 + e :=
    ⟨t - (F.fractionBits + 1), by omega, by omega⟩
  have hcast : (2 : ℤ) ^ (F.fractionBits + 1 + e) - 1 =
      (2 ^ (F.fractionBits + 1 + e) - 1 : ℕ) := by
    push_cast [Nat.one_le_two_pow]
    rfl
  have hsign : decide (((2 ^ (F.fractionBits + 1 + e) - 1 : ℕ) : ℤ) < 0) = false :=
    decide_eq_false (by omega)
  have hnum : (2 ^ (F.fractionBits + 1 + e) - 1) * pow2 F.unitShift =
      (2 ^ (F.fractionBits + 1 + e) - 1) * 2 ^ (F.unitShift - k) * 2 ^ k := by
    rw [pow2_eq, Nat.mul_assoc, ← pow_add, Nat.sub_add_cancel hk]
  have hunits : F.units ((e + (F.unitShift - k)) * 2 ^ F.fractionBits + 2 ^ (F.fractionBits + 1)) =
      2 ^ (F.fractionBits + 1) * 2 ^ (e + (F.unitShift - k)) :=
    F.units_binade (.inr (Nat.pow_le_pow_right (by decide) (by omega))) le_rfl
  have hfinite : (e + (F.unitShift - k)) * 2 ^ F.fractionBits + 2 ^ (F.fractionBits + 1) <
      F.infinity := by
    rw [← F.units_strictMono.lt_iff_lt, hunits, units_infinity hF, ← pow_add, ← pow_add]
    exact Nat.pow_lt_pow_right (by decide) (by omega)
  have hjoin : (F.ofDyadic (2 ^ (F.fractionBits + 1 + e) - 1) k : BitVec w) = F.join false
      ((e + (F.unitShift - k)) * 2 ^ F.fractionBits + 2 ^ (F.fractionBits + 1)) := by
    rw [hcast, ofDyadic, hsign, Int.natAbs_natCast, hnum, pow2_eq k]
    nth_rewrite 2 [← Nat.one_mul (2 ^ k)]
    rw [F.nearest_mul_right _ _ (Nat.two_pow_pos k), F.nearest_pred_two_pow he,
      Nat.min_eq_right hfinite.le]
  rw [hjoin]
  refine ⟨isFinite_join hw hfinite _, ?_⟩
  rw [value, unitCount_join hw hfinite, hunits, div_eq_div_iff (by positivity) (by positivity)]
  simp only [signed, Bool.false_eq_true, if_false]
  push_cast
  rw [← pow_add, ← pow_add, ← pow_add]
  congr 1
  omega

include hw in
theorem exists_int_value_ofInt (hF : F.Wide) (n : ℤ) :
    ∃ i : ℤ, F.value (F.ofInt n : BitVec w) = i := by
  obtain hn | hn := le_or_gt n.natAbs (2 ^ (F.fractionBits + 1))
  · exact ⟨n, (value_ofInt hw (exact_intCast hF hn)).2⟩
  have hpow : 2 ^ F.exponentBits = 2 ^ (F.exponentBits - 1) * 2 := by
    rw [← pow_succ, Nat.sub_add_cancel hF.exponentBits_gt.le]
  have hshift : F.unitShift + 2 ≤ 2 ^ F.exponentBits - 1 := by
    have hlt := hF.fractionBits_lt
    rw [unitShift, pow2_eq]
    omega
  have hbinade : F.units ((F.unitShift + 1) * 2 ^ F.fractionBits + 2 ^ F.fractionBits) =
      2 ^ (F.fractionBits + 1) * 2 ^ F.unitShift := by
    rw [F.units_binade (.inr le_rfl) (Nat.pow_le_pow_right (by decide) (by omega)), pow_succ,
      pow_succ]
    ring
  have hle : (F.unitShift + 1) * 2 ^ F.fractionBits + 2 ^ F.fractionBits ≤
      F.magnitude (F.ofInt n : BitVec w) := by
    rw [ofInt, ofDyadic, magnitude_join hw _ (F.nearest_le_infinity _ _)]
    apply le_nearest Nat.one_pos
    · rw [infinity, pow2_eq, pow2_eq, ← Nat.succ_mul]
      exact Nat.mul_le_mul_right _ hshift
    · rw [hbinade, pow2_eq, Nat.mul_one]
      exact Nat.mul_le_mul_right _ hn.le
  have hdvd := F.two_pow_dvd_units (le_trans (Nat.le_add_right _ _) hle)
  obtain ⟨c, hc⟩ := Int.natCast_dvd.mpr (natAbs_unitCount (F.ofInt n : BitVec w) ▸ hdvd)
  refine ⟨c, value_eq_intCast_iff.mpr ?_⟩
  rw [hc, mul_comm]
  push_cast
  rfl

end Rounding

end PackedStream.FloatFormat
