import PackedStream.Proofs.Fixed

namespace PackedStream.FieldFormat

open FloatFormat (binary32 binary64 wide_binary64 magnitudeBits_binary64)

variable {f : FieldFormat} {x : Word} {n : ℤ}

def magnitudeWidth (f : FieldFormat) : ℕ := if f.signed = true then f.width - 1 else f.width

def lowest : FieldFormat → ℤ
  | ternary => -1
  | f => if f.signed = true then -2 ^ (f.width - 1) else 0

def Denotes (f : FieldFormat) (v : ℚ) : Prop :=
  match f with
  | float32 => binary32.Exact v
  | bipolar => v = -1 ∨ v = 1
  | f => ∃ n : ℤ, f.lowest ≤ n ∧ n < 2 ^ f.magnitudeWidth ∧ v = n / 2 ^ f.fracBits

section Grid

variable (hf : f.validate = .ok ()) (hfloat : f ≠ float32) (hbi : f ≠ bipolar)

include hfloat hbi in
theorem denotes_iff {v : ℚ} : f.Denotes v ↔
    ∃ n : ℤ, f.lowest ≤ n ∧ n < 2 ^ f.magnitudeWidth ∧ v = n / 2 ^ f.fracBits := by
  cases f with
  | float32 => exact absurd rfl hfloat
  | bipolar => exact absurd rfl hbi
  | uint | int | fixed | binary | ternary => rfl

theorem holds_of_lowest_le (hlow : f.lowest ≤ n) (hhigh : n < 2 ^ f.magnitudeWidth) : f.Holds n := by
  unfold Holds
  cases f with
  | ternary => exact ⟨le_trans (by decide) hlow, hhigh⟩
  | uint | binary | int | fixed | bipolar | float32 => exact ⟨hlow, hhigh⟩

include hf in
theorem magnitudeWidth_le : f.magnitudeWidth ≤ 64 := by
  have hw := width_le hf
  unfold magnitudeWidth
  split <;> omega

include hf in
theorem fracBits_lt : f.fracBits < 64 := by
  have hw := width_le hf
  cases f with
  | fixed bits intBits =>
    have hint := (validate_fixed_iff.mp hf).2.2
    have hle : bits ≤ 64 := hw
    simp only [fracBits]
    omega
  | uint | int | binary | ternary | float32 | bipolar => exact Nat.succ_pos 63

include hf in
theorem lowest_bounds : -2 ^ 63 ≤ f.lowest ∧ f.lowest ≤ 0 := by
  have hpow : (2 : ℤ) ^ (f.width - 1) ≤ 2 ^ 63 :=
    pow_le_pow_right₀ (by norm_num) (by have := width_le hf; omega)
  have hpos : (0 : ℤ) < 2 ^ (f.width - 1) := by positivity
  cases f with
  | ternary => decide
  | uint | binary | int | fixed | bipolar | float32 =>
    simp only [lowest]
    split <;> omega

include hf hfloat hbi in
theorem least_eq : f.least = binary64.ofDyadic f.lowest f.fracBits := by
  have hhalf {t : ℕ} (ht : 0 < t) :
      (binary64.ofDyadic (-(pow2 t : ℤ)) 1 : Word) = binary64.ofDyadic (-2 ^ (t - 1)) 0 := by
    rw [← FloatFormat.ofDyadic_mul_two_pow binary64 (-2 ^ (t - 1)) 0 1, neg_mul, pow_one,
      mul_comm, two_mul_two_pow_pred ht, pow2_eq]
    rfl
  cases f with
  | uint | binary | ternary => rfl
  | int bits => exact hhalf (width_pos hf)
  | fixed bits intBits =>
    obtain ⟨-, -, hpos, hle⟩ := validate_fixed_iff.mp hf
    have hsplit : (-2 ^ (bits - 1) : ℤ) = -2 ^ (intBits - 1) * 2 ^ (bits - intBits) := by
      rw [neg_mul, ← pow_add, Nat.add_comm, Nat.sub_add_sub_cancel hle hpos]
    have hscaled := FloatFormat.ofDyadic_mul_two_pow binary64 (w := 64) (-2 ^ (intBits - 1)) 0
      (bits - intBits)
    rw [← hsplit, Nat.zero_add] at hscaled
    exact (hhalf hpos).trans hscaled.symm
  | float32 => exact absurd rfl hfloat
  | bipolar => exact absurd rfl hbi

include hf hfloat hbi in
theorem greatest_eq : f.greatest = binary64.ofDyadic (2 ^ f.magnitudeWidth - 1) f.fracBits := by
  have hhalf {t : ℕ} (ht : 0 < t) (k : ℕ) :
      (binary64.ofDyadic ((pow2 t : ℤ) - 2) (k + 1) : Word) =
        binary64.ofDyadic (2 ^ (t - 1) - 1) k := by
    rw [← FloatFormat.ofDyadic_mul_two_pow binary64 (2 ^ (t - 1) - 1) k 1, sub_mul, pow_one,
      mul_comm, two_mul_two_pow_pred ht, pow2_eq, one_mul]
    push_cast
    rfl
  cases f with
  | uint bits =>
    rw [greatest, pow2_eq]
    rfl
  | int bits => exact hhalf (width_pos hf) 0
  | fixed bits intBits =>
    have hsum : intBits + (bits - intBits) = bits :=
      Nat.add_sub_of_le (validate_fixed_iff.mp hf).2.2.2
    simp only [greatest, fracBits]
    rw [hsum]
    exact hhalf (width_pos hf) (bits - intBits)
  | binary | ternary => rfl
  | float32 => exact absurd rfl hfloat
  | bipolar => exact absurd rfl hbi

include hf in
theorem exact_lowest : binary64.Exact ((f.lowest : ℚ) / 2 ^ f.fracBits) := by
  have hfrac : f.fracBits ≤ binary64.unitShift := le_trans (fracBits_lt hf).le (by decide)
  have hpow : binary64.Exact (((-2 ^ (f.width - 1) : ℤ) : ℚ) / 2 ^ f.fracBits) := by
    have ht : f.width - 1 < 2 ^ (binary64.exponentBits - 1) :=
      lt_of_lt_of_le (by have := width_le hf; omega : f.width - 1 < 64) (by decide)
    simpa [neg_div] using (FloatFormat.exact_two_pow_div wide_binary64 ht hfrac).neg
  have hsmall {i : ℤ} (hi : i.natAbs ≤ 1) : binary64.Exact ((i : ℚ) / 2 ^ f.fracBits) :=
    FloatFormat.exact_div_two_pow wide_binary64 (le_trans hi Nat.one_le_two_pow) hfrac
  cases f with
  | uint | binary => exact hsmall (i := 0) (by decide)
  | ternary => exact hsmall (i := -1) (by decide)
  | int | fixed | bipolar | float32 => exact hpow

include hf hfloat hbi in
theorem value_least :
    binary64.isFinite f.least = true ∧ binary64.value f.least = f.lowest / 2 ^ f.fracBits := by
  rw [least_eq hf hfloat hbi]
  exact FloatFormat.value_ofDyadic magnitudeBits_binary64 (exact_lowest hf)

include hf hfloat hbi in
theorem value_greatest :
    binary64.isFinite f.greatest = true ∧ binary64.value f.greatest =
      (if f.magnitudeWidth ≤ 53 then 2 ^ f.magnitudeWidth - 1 else 2 ^ f.magnitudeWidth) /
        2 ^ f.fracBits := by
  have hfrac : f.fracBits ≤ binary64.unitShift := le_trans (fracBits_lt hf).le (by decide)
  rw [greatest_eq hf hfloat hbi]
  split
  case isTrue ht =>
    have hpow : (2 : ℤ) ^ f.magnitudeWidth ≤ 2 ^ 53 := pow_le_pow_right₀ (by norm_num) ht
    have hpos : (0 : ℤ) < 2 ^ f.magnitudeWidth := by positivity
    have hexact := FloatFormat.exact_div_two_pow wide_binary64 (n := 2 ^ f.magnitudeWidth - 1)
      (by change _ ≤ 2 ^ 53; omega) hfrac
    simpa using FloatFormat.value_ofDyadic magnitudeBits_binary64 hexact
  case isFalse ht =>
    exact FloatFormat.value_ofDyadic_pred magnitudeBits_binary64 wide_binary64 (not_le.mp ht)
      (lt_of_le_of_lt (magnitudeWidth_le hf) (by decide)) hfrac

theorem bounds_of_represents (h : f.represents x = true) :
    binary64.le f.least x = true ∧ binary64.le x f.greatest = true := by
  unfold represents at h
  rw [Bool.and_eq_true, Bool.and_eq_true] at h
  exact h.1

include hfloat hbi in
theorem represents_steps_iff (hx : binary64.isFinite x = true)
    (hbound : |binary64.value x * 2 ^ f.fracBits| < binary64.bound) :
    f.represents x = true ↔
      (binary64.le f.least x = true ∧ binary64.le x f.greatest = true) ∧
        ∃ n : ℤ, binary64.value x = n / 2 ^ f.fracBits := by
  have hgrid (n : ℤ) : binary64.value x = n / 2 ^ f.fracBits ↔
      binary64.value x * 2 ^ f.fracBits = n := eq_div_iff (by positivity)
  unfold represents
  rw [Bool.and_eq_true, Bool.and_eq_true]
  apply and_congr_right'
  simp only [hgrid]
  cases f with
  | uint | int | binary | ternary =>
    simp only [FloatFormat.isIntegral_iff, hx, true_and, fracBits, pow_zero, mul_one]
  | fixed bits intBits =>
    have hexact := (FloatFormat.exact_value hx).mul_two_pow wide_binary64 hbound
    obtain ⟨hfinite, hvalue⟩ := FloatFormat.value_scaleUp magnitudeBits_binary64 hx hexact
    change binary64.isIntegral (binary64.scaleUp (fixed bits intBits).fracBits x) = true ↔ _
    simp only [FloatFormat.isIntegral_iff, hfinite, true_and, hvalue]
  | float32 => exact absurd rfl hfloat
  | bipolar => exact absurd rfl hbi

include hf hfloat hbi in
theorem abs_steps_lt_bound (hlow : binary64.value f.least ≤ binary64.value x)
    (hhigh : binary64.value x ≤ binary64.value f.greatest) :
    |binary64.value x * 2 ^ f.fracBits| < binary64.bound := by
  rw [(value_least hf hfloat hbi).2, div_le_iff₀ (by positivity)] at hlow
  rw [(value_greatest hf hfloat hbi).2, le_div_iff₀ (by positivity)] at hhigh
  have hbottom : (-2 ^ 64 : ℚ) ≤ f.lowest := by
    exact_mod_cast le_trans (by norm_num) (lowest_bounds hf).1
  have htop : (if f.magnitudeWidth ≤ 53 then (2 : ℚ) ^ f.magnitudeWidth - 1
      else 2 ^ f.magnitudeWidth) ≤ 2 ^ 64 := by
    have hpow : (2 : ℚ) ^ f.magnitudeWidth ≤ 2 ^ 64 :=
      pow_le_pow_right₀ (by norm_num) (magnitudeWidth_le hf)
    split <;> linarith
  exact FloatFormat.abs_lt_bound_binary64 (hbottom.trans hlow) (hhigh.trans htop)

include hf hfloat hbi in
theorem represents_grid_iff : f.represents x = true ↔ binary64.isFinite x = true ∧
    ∃ n : ℤ, f.lowest ≤ n ∧ binary64.value x = n / 2 ^ f.fracBits ∧
      (n < 2 ^ f.magnitudeWidth ∨ 53 < f.magnitudeWidth ∧ n = 2 ^ f.magnitudeWidth) := by
  obtain ⟨hleast, hvleast⟩ := value_least hf hfloat hbi
  obtain ⟨hgreatest, hvgreatest⟩ := value_greatest hf hfloat hbi
  have hle (n : ℤ) : binary64.value f.least ≤ n / 2 ^ f.fracBits ↔ f.lowest ≤ n := by
    rw [hvleast, div_le_div_iff_of_pos_right (by positivity), Int.cast_le]
  have hge (n : ℤ) : n / 2 ^ f.fracBits ≤ binary64.value f.greatest ↔
      (n < 2 ^ f.magnitudeWidth ∨ 53 < f.magnitudeWidth ∧ n = 2 ^ f.magnitudeWidth) := by
    rw [hvgreatest, div_le_div_iff_of_pos_right (by positivity)]
    split
    · rw [← Int.cast_ofNat, ← Int.cast_pow, ← Int.cast_one, ← Int.cast_sub, Int.cast_le]
      omega
    · rw [← Int.cast_ofNat, ← Int.cast_pow, Int.cast_le]
      omega
  constructor
  · intro h
    obtain ⟨hlow, hhigh⟩ := bounds_of_represents h
    have hx := FloatFormat.isFinite_of_le hleast hgreatest hlow hhigh
    rw [FloatFormat.le_iff hleast hx] at hlow
    rw [FloatFormat.le_iff hx hgreatest] at hhigh
    obtain ⟨-, n, hn⟩ := (represents_steps_iff hfloat hbi hx
      (abs_steps_lt_bound hf hfloat hbi hlow hhigh)).mp h
    rw [hn] at hlow hhigh
    exact ⟨hx, n, (hle n).mp hlow, hn, (hge n).mp hhigh⟩
  · rintro ⟨hx, n, hlow, hn, hhigh⟩
    rw [← hle n, ← hn] at hlow
    rw [← hge n, ← hn] at hhigh
    rw [represents_steps_iff hfloat hbi hx (abs_steps_lt_bound hf hfloat hbi hlow hhigh),
      FloatFormat.le_iff hleast hx, FloatFormat.le_iff hx hgreatest]
    exact ⟨⟨hlow, hhigh⟩, n, hn⟩

section RoundTrip

variable (hx : binary64.isFinite x = true) (hn : binary64.value x = n / 2 ^ f.fracBits)
  (hlow : f.lowest ≤ n) (hhigh : n ≤ 2 ^ f.magnitudeWidth)

def clamped (n : ℤ) : ℤ := max (-2 ^ 63) (min (2 ^ 64 - 1) n)

include hf hfloat hbi hx hn hlow hhigh in
theorem encode_grid : f.encode (.float x) = (BitVec.ofInt f.width (clamped n)).setWidth 64 := by
  have htop : (2 : ℤ) ^ f.magnitudeWidth ≤ 2 ^ 64 :=
    pow_le_pow_right₀ (by norm_num) (magnitudeWidth_le hf)
  have hbottom := (lowest_bounds hf).1
  have hsteps : binary64.value x * 2 ^ f.fracBits = n := (eq_div_iff (by positivity)).mp hn
  rw [encode_eq_setWidth, code_float hfloat hbi hx hsteps (by omega) (by omega),
    setWidth_ofInt (width_le hf)]
  rfl

include hf hlow in
theorem wrap_clamped_eq_iff : f.wrap (clamped n) = n ↔ n < 2 ^ f.magnitudeWidth := by
  constructor
  · intro h
    have hholds := holds_wrap (width_pos hf) (clamped n)
    rw [h] at hholds
    unfold Holds at hholds
    unfold magnitudeWidth
    split at hholds
    · rw [if_pos ‹_›]
      exact hholds.2
    · rw [if_neg ‹_›]
      exact hholds.2
  · intro h
    have htop : (2 : ℤ) ^ f.magnitudeWidth ≤ 2 ^ 64 :=
      pow_le_pow_right₀ (by norm_num) (magnitudeWidth_le hf)
    have hbottom := (lowest_bounds hf).1
    have hsame : clamped n = n := by
      unfold clamped
      omega
    rw [hsame]
    exact wrap_eq_self (width_pos hf) (holds_of_lowest_le hlow h)

theorem value_decode_integer (hint : f.isInteger = true) (hne : f ≠ bipolar) (hw : f.width ≤ 64)
    (c : ℤ) : (f.decode ((BitVec.ofInt f.width c).setWidth 64)).value = f.wrap c := by
  rw [decode_integer hint hne, wrap_eq_toInt_or_toNat, BitVec.setWidth_setWidth_of_le _ hw,
    BitVec.setWidth_eq]
  split
  · rw [Scalar.value_int, BitVec.toInt_signExtend_of_le hw]
  · rw [Scalar.value_uint, BitVec.toNat_setWidth_of_le hw, Int.cast_natCast]

theorem value_decode_fixed {bits intBits : ℕ} (hf : (fixed bits intBits).validate = .ok ()) {c : ℤ}
    (hexact : binary64.Exact ((fixed bits intBits).wrap c)) :
    ((fixed bits intBits).decode ((BitVec.ofInt bits c).setWidth 64)).value =
      (fixed bits intBits).wrap c / 2 ^ (bits - intBits) := by
  have hw : bits ≤ 64 := width_le hf
  have hcode : (fixed bits intBits).fieldCode ((BitVec.ofInt bits c).setWidth 64) =
      (fixed bits intBits).wrap c := by
    rw [fieldCode_eq (width_le hf), wrap_eq_toInt_or_toNat]
    change (((BitVec.ofInt bits c).setWidth 64).setWidth bits).toInt = (BitVec.ofInt bits c).toInt
    rw [BitVec.setWidth_setWidth_of_le _ hw, BitVec.setWidth_eq]
  obtain ⟨y, hy, -, hvalue⟩ := decode_fixed hf ((BitVec.ofInt bits c).setWidth 64)
  rw [hy, Scalar.value_float, hvalue, (roundedCode_eq_iff hf _).mpr (hcode ▸ hexact), hcode]

include hf hx hn hlow hhigh in
theorem exact_wrap_clamped (hs : f.signed = true) : binary64.Exact (f.wrap (clamped n)) := by
  obtain hlt | htop := hhigh.lt_or_eq
  · rw [(wrap_clamped_eq_iff hf hlow).mpr hlt]
    have hsteps : binary64.value x * 2 ^ f.fracBits = n := (eq_div_iff (by positivity)).mp hn
    have hpow : (2 : ℤ) ^ f.magnitudeWidth ≤ 2 ^ 64 :=
      pow_le_pow_right₀ (by norm_num) (magnitudeWidth_le hf)
    have hbottom := (lowest_bounds hf).1
    rw [← hsteps]
    apply (FloatFormat.exact_value hx).mul_two_pow wide_binary64
    rw [hsteps]
    apply FloatFormat.abs_lt_bound_binary64
    · exact_mod_cast (by omega : -2 ^ 64 ≤ n)
    · exact_mod_cast (by omega : n ≤ 2 ^ 64)
  · have hw := width_le hf
    have hdouble := two_pow_width (width_pos hf)
    have hn : n = 2 ^ (f.width - 1) := by rw [htop, magnitudeWidth, if_pos hs]
    have hpos : (0 : ℤ) < 2 ^ (f.width - 1) := by positivity
    have hpow : (2 : ℤ) ^ (f.width - 1) ≤ 2 ^ 63 := pow_le_pow_right₀ (by norm_num) (by omega)
    have hsame : clamped n = n := by
      unfold clamped
      omega
    have hlowest : f.Holds (-2 ^ (f.width - 1)) := by
      rw [Holds, if_pos hs]
      omega
    have hcong : n ≡ -2 ^ (f.width - 1) [ZMOD 2 ^ f.width] := by
      rw [Int.modEq_iff_dvd, hn]
      exact ⟨-1, by omega⟩
    have hwrap : f.wrap n = -2 ^ (f.width - 1) :=
      (holds_wrap (width_pos hf) n).eq_of_modEq (width_pos hf) hlowest ((f.wrap_modEq n).trans hcong)
    have ht : f.width - 1 < 2 ^ (binary64.exponentBits - 1) :=
      lt_of_lt_of_le (by omega : f.width - 1 < 64) (by decide)
    rw [hsame, hwrap]
    simpa using (FloatFormat.exact_two_pow wide_binary64 ht).neg

include hf hfloat hbi hx hn hlow hhigh in
theorem value_decode_encode_grid :
    (f.decode (f.encode (.float x))).value = f.wrap (clamped n) / 2 ^ f.fracBits := by
  rw [encode_grid hf hfloat hbi hx hn hlow hhigh]
  cases f with
  | fixed bits intBits =>
    exact value_decode_fixed hf (exact_wrap_clamped hf hx hn hlow hhigh rfl)
  | uint | int | binary | ternary =>
    rw [value_decode_integer rfl hbi (width_le hf)]
    exact (div_one _).symm
  | float32 => exact absurd rfl hfloat
  | bipolar => exact absurd rfl hbi

include hf hfloat hbi hx hn hlow hhigh in
theorem decode_encode_grid_iff :
    (f.decode (f.encode (.float x))).value = binary64.value x ↔ n < 2 ^ f.magnitudeWidth := by
  rw [value_decode_encode_grid hf hfloat hbi hx hn hlow hhigh, hn, div_left_inj' (by positivity),
    Int.cast_inj]
  exact wrap_clamped_eq_iff hf hlow

end RoundTrip

end Grid

end PackedStream.FieldFormat
