import PackedStream.Proofs.Native

namespace PackedStream.FieldFormat

open FloatFormat (binary32 binary64 wide_binary32 wide_binary64 magnitudeBits_binary32
  magnitudeBits_binary64)

variable {f : FieldFormat}

section Codes

def fieldCode (f : FieldFormat) (field : Word) : ℤ := (f.signedWord field).toInt

theorem fieldCode_eq (hw : f.width ≤ 64) (field : Word) :
    f.fieldCode field = (field.setWidth f.width).toInt :=
  BitVec.toInt_signExtend_of_le hw

theorem fieldCode_bounds (hw : f.width ≤ 64) (field : Word) :
    -2 ^ (f.width - 1) ≤ f.fieldCode field ∧ f.fieldCode field < 2 ^ (f.width - 1) := by
  rw [fieldCode_eq hw]
  exact ⟨BitVec.le_toInt _, BitVec.toInt_lt⟩

theorem ofInt_fieldCode (hw : f.width ≤ 64) (field : Word) :
    BitVec.ofInt f.width (f.fieldCode field) = field.setWidth f.width := by
  rw [fieldCode_eq hw, BitVec.ofInt_toInt]

theorem fieldCode_ofInt {c : ℤ} (hpos : 0 < f.width) (hw : f.width ≤ 64)
    (hlow : -2 ^ (f.width - 1) ≤ c) (hhigh : c < 2 ^ (f.width - 1)) :
    ((BitVec.ofInt f.width c).setWidth 64).toNat < 2 ^ f.width ∧
      f.fieldCode ((BitVec.ofInt f.width c).setWidth 64) = c := by
  constructor
  · rw [BitVec.toNat_setWidth_of_le hw]
    exact BitVec.isLt _
  · rw [fieldCode_eq hw, BitVec.setWidth_setWidth_of_le _ hw, BitVec.setWidth_eq,
      toInt_ofInt_of_bounds hpos hlow hhigh]

theorem code_float_truncated (hf32 : f ≠ float32) (hbi : f ≠ bipolar) {x : Word}
    (hx : binary64.isFinite x = true)
    (hbound : |binary64.value x * 2 ^ f.fracBits| < binary64.bound) :
    f.code (.float x) = BitVec.ofInt 64
      (max (-2 ^ 63) (min (2 ^ 64 - 1) (truncated (binary64.value x * 2 ^ f.fracBits)))) := by
  cases f with
  | fixed bits intBits =>
    have hexact := (FloatFormat.exact_value hx).mul_two_pow wide_binary64 hbound
    obtain ⟨hfinite, hvalue⟩ := FloatFormat.value_scaleUp magnitudeBits_binary64 hx hexact
    rw [← hvalue]
    exact Scalar.codeOfFloat_truncated hfinite
  | uint | int | binary | ternary =>
    simp only [fracBits, pow_zero, mul_one]
    exact Scalar.codeOfFloat_truncated hx
  | float32 => exact absurd rfl hf32
  | bipolar => exact absurd rfl hbi

theorem code_float (hf32 : f ≠ float32) (hbi : f ≠ bipolar) {x : Word}
    (hx : binary64.isFinite x = true) {n : ℤ} (hn : binary64.value x * 2 ^ f.fracBits = n)
    (hlow : -2 ^ 64 ≤ n) (hhigh : n ≤ 2 ^ 64) :
    f.code (.float x) = BitVec.ofInt 64 (max (-2 ^ 63) (min (2 ^ 64 - 1) n)) := by
  have hbound : |binary64.value x * 2 ^ f.fracBits| < binary64.bound := by
    rw [hn]
    exact FloatFormat.abs_lt_bound_binary64 (by exact_mod_cast hlow) (by exact_mod_cast hhigh)
  rw [code_float_truncated hf32 hbi hx hbound, hn, truncated_intCast]

end Codes

section Fixed

variable {bits intBits : ℕ}

def roundedCode (f : FieldFormat) (field : Word) : ℤ :=
  binary64.integerPart (binary64.ofInt (f.fieldCode field) : Word)

theorem value_ofInt_fieldCode (f : FieldFormat) (field : Word) :
    binary64.value (binary64.ofInt (f.fieldCode field) : Word) = f.roundedCode field := by
  obtain ⟨i, hi⟩ := FloatFormat.exists_int_value_ofInt magnitudeBits_binary64 wide_binary64
    (f.fieldCode field)
  rw [roundedCode, FloatFormat.integerPart_of_value_eq hi, hi]

theorem isFinite_ofInt_fieldCode (hf : f.validate = .ok ()) (field : Word) :
    binary64.isFinite (binary64.ofInt (f.fieldCode field) : Word) = true ∧
      -2 ^ (f.width - 1) ≤ f.roundedCode field ∧ f.roundedCode field ≤ 2 ^ (f.width - 1) := by
  have hw := width_le hf
  obtain ⟨hlow, hhigh⟩ := fieldCode_bounds hw field
  have ht : f.width - 1 < 2 ^ (binary64.exponentBits - 1) :=
    lt_of_lt_of_le (by omega : f.width - 1 < 64) (by decide)
  obtain ⟨hfinite, hge, hle⟩ :=
    FloatFormat.value_ofInt_bounds magnitudeBits_binary64 wide_binary64 ht hlow hhigh.le
  rw [value_ofInt_fieldCode] at hge hle
  exact ⟨hfinite, by exact_mod_cast hge, by exact_mod_cast hle⟩

theorem roundedCode_eq_iff (hf : f.validate = .ok ()) (field : Word) :
    f.roundedCode field = f.fieldCode field ↔ binary64.Exact (f.fieldCode field) := by
  have hvalue := f.value_ofInt_fieldCode field
  constructor
  · intro h
    rw [← h, ← hvalue]
    exact FloatFormat.exact_value (isFinite_ofInt_fieldCode hf field).1
  · intro h
    rw [(FloatFormat.value_ofInt magnitudeBits_binary64 h).2] at hvalue
    exact_mod_cast hvalue.symm

theorem roundedCode_eq_of_modEq (hf : f.validate = .ok ()) {field : Word}
    (h : f.roundedCode field ≡ f.fieldCode field [ZMOD 2 ^ f.width]) :
    f.roundedCode field = f.fieldCode field := by
  have hpow := two_pow_width (width_pos hf)
  obtain ⟨hlow, hhigh⟩ := fieldCode_bounds (width_le hf) field
  obtain ⟨-, hlow', hhigh'⟩ := isFinite_ofInt_fieldCode hf field
  -- Only the least code is far enough from its opposite to go all the way round, and it is exact.
  obtain hleast | hleast := hlow.eq_or_lt
  · rw [roundedCode_eq_iff hf, ← hleast]
    have ht : f.width - 1 < 2 ^ (binary64.exponentBits - 1) :=
      lt_of_lt_of_le (by have := width_le hf; omega : f.width - 1 < 64) (by decide)
    simpa using (FloatFormat.exact_two_pow wide_binary64 ht).neg
  · have hdist : |f.fieldCode field - f.roundedCode field| < 2 ^ f.width := by
      rw [abs_lt]
      omega
    have hzero := Int.eq_zero_of_abs_lt_dvd h.dvd hdist
    omega

theorem decode_fixed (hf : (fixed bits intBits).validate = .ok ()) (field : Word) :
    ∃ y : Word, (fixed bits intBits).decode field = .float y ∧ binary64.isFinite y = true ∧
      binary64.value y = (fixed bits intBits).roundedCode field / 2 ^ (bits - intBits) := by
  obtain ⟨hfinite, -⟩ := isFinite_ofInt_fieldCode hf field
  have hvalue := value_ofInt_fieldCode (fixed bits intBits) field
  have hshift : bits - intBits ≤ binary64.unitShift := by
    have hle : bits ≤ 64 := width_le hf
    exact le_trans (by omega : bits - intBits ≤ 64) (by decide)
  have hexact : binary64.Exact
      (binary64.value (binary64.ofInt ((fixed bits intBits).fieldCode field) : Word) /
        2 ^ (bits - intBits)) := by
    apply FloatFormat.Exact.div_two_pow (FloatFormat.exact_value hfinite)
      (n := (fixed bits intBits).roundedCode field * 2 ^ (binary64.unitShift - (bits - intBits)))
    rw [hvalue]
    push_cast
    rw [div_mul_eq_mul_div, div_eq_iff (by positivity), mul_assoc, ← pow_add,
      Nat.sub_add_cancel hshift]
  obtain ⟨hfinite', hvalue'⟩ := FloatFormat.value_scaleDown magnitudeBits_binary64 hfinite hexact
  exact ⟨_, rfl, hfinite', hvalue ▸ hvalue'⟩

theorem toScalar_native_fixed (hf : (fixed bits intBits).validate = .ok ()) (field : Word) :
    ∃ z : Word, (fixed bits intBits).hostType.toScalar ((fixed bits intBits).native field) =
        .float z ∧ binary64.isFinite z = true ∧
      binary64.value z = (fixed bits intBits).roundedCode field / 2 ^ (bits - intBits) := by
  obtain ⟨y, hdecode, hfinite, hvalue⟩ := decode_fixed hf field
  rw [native, hdecode]
  by_cases hnarrow : bits ≤ 24
  · have hhost : (fixed bits intBits).hostType = .f32 := if_pos hnarrow
    obtain ⟨-, hlow, hhigh⟩ := isFinite_ofInt_fieldCode hf field
    have hpow : (2 : ℤ) ^ (bits - 1) ≤ 2 ^ 24 :=
      pow_le_pow_right₀ (by norm_num) (by omega)
    have hexact : binary32.Exact (binary64.value y) := by
      rw [hvalue]
      apply FloatFormat.exact_div_two_pow wide_binary32
      · change -2 ^ (bits - 1) ≤ _ at hlow
        change _ ≤ 2 ^ (bits - 1) at hhigh
        change _ ≤ 2 ^ 24
        omega
      · exact le_trans (by omega : bits - intBits ≤ 24) (by decide)
    obtain ⟨hfinite', hvalue'⟩ := FloatFormat.value_convert magnitudeBits_binary32 hfinite hexact
    have hexact' := hexact.binary64
    rw [← hvalue'] at hexact'
    obtain ⟨hfinite'', hvalue''⟩ :=
      FloatFormat.value_convert magnitudeBits_binary64 hfinite' hexact'
    rw [hhost]
    exact ⟨_, rfl, hfinite'', hvalue''.trans (hvalue'.trans hvalue)⟩
  · have hhost : (fixed bits intBits).hostType = .f64 := if_neg hnarrow
    rw [hhost]
    exact ⟨y, rfl, hfinite, hvalue⟩

theorem encode_native_fixed (hf : (fixed bits intBits).validate = .ok ()) (field : Word) :
    (fixed bits intBits).encode
        ((fixed bits intBits).hostType.toScalar ((fixed bits intBits).native field)) =
      (BitVec.ofInt bits ((fixed bits intBits).roundedCode field)).setWidth 64 := by
  obtain ⟨z, hz, hfinite, hvalue⟩ := toScalar_native_fixed hf field
  obtain ⟨-, hlow, hhigh⟩ := isFinite_ofInt_fieldCode hf field
  have hw : bits ≤ 64 := width_le hf
  have hpow : (2 : ℤ) ^ ((fixed bits intBits).width - 1) ≤ 2 ^ 63 :=
    pow_le_pow_right₀ (by norm_num) (by simp only [width]; omega)
  have hgrid : binary64.value z * 2 ^ (fixed bits intBits).fracBits =
      (fixed bits intBits).roundedCode field := by
    rw [hvalue]
    exact div_mul_cancel₀ _ (by positivity)
  rw [hz, encode_eq_setWidth, code_float (by simp) (by simp) hfinite hgrid (by omega) (by omega),
    min_eq_right (by omega), max_eq_right (by omega), setWidth_ofInt (by exact hw)]
  rfl

theorem encode_native_fixed_iff (hf : (fixed bits intBits).validate = .ok ()) {field : Word}
    (hfield : field.toNat < 2 ^ bits) :
    (fixed bits intBits).encode
        ((fixed bits intBits).hostType.toScalar ((fixed bits intBits).native field)) = field ↔
      binary64.Exact ((fixed bits intBits).fieldCode field) := by
  have hw : bits ≤ 64 := width_le hf
  have hcode : BitVec.ofInt bits ((fixed bits intBits).fieldCode field) = field.setWidth bits :=
    ofInt_fieldCode (f := fixed bits intBits) hw field
  rw [encode_native_fixed hf, ← roundedCode_eq_iff hf]
  constructor
  · intro h
    have hcut := congrArg (BitVec.setWidth bits) h
    rw [BitVec.setWidth_setWidth_of_le _ hw, BitVec.setWidth_eq, ← hcode] at hcut
    exact roundedCode_eq_of_modEq hf (modEq_of_ofInt_eq hcut)
  · intro h
    rw [h, hcode, setWidth_setWidth_of_lt hfield]

theorem exact_fieldCode_iff (hf : f.validate = .ok ()) :
    (∀ field : Word, field.toNat < 2 ^ f.width → binary64.Exact (f.fieldCode field)) ↔
      f.width ≤ 54 := by
  constructor
  · -- `2 ^ 53 + 1` is the first integer that binary64 lacks, a code from 55 bits on.
    intro h
    by_contra! hwide
    have hpow : (2 : ℤ) ^ 54 ≤ 2 ^ (f.width - 1) := pow_le_pow_right₀ (by norm_num) (by omega)
    obtain ⟨hlt, hcode⟩ :=
      fieldCode_ofInt (c := 2 ^ 53 + 1) (width_pos hf) (width_le hf) (by omega) (by omega)
    have hexact := h _ hlt
    rw [hcode] at hexact
    exact FloatFormat.not_exact_of_odd (by decide) (by decide) hexact
  · intro hnarrow field _
    obtain ⟨hlow, hhigh⟩ := fieldCode_bounds (width_le hf) field
    have hpow : (2 : ℤ) ^ (f.width - 1) ≤ 2 ^ 53 := pow_le_pow_right₀ (by norm_num) (by omega)
    apply FloatFormat.exact_intCast wide_binary64
    change (f.fieldCode field).natAbs ≤ 2 ^ 53
    omega

def unpacked (f : FieldFormat) (field : Word) : Scalar := f.hostType.toScalar (f.native field)

theorem unpacked_fixed (hf : (fixed bits intBits).validate = .ok ()) {field : Word}
    (hfield : field.toNat < 2 ^ bits) :
    ∃ z : Word, (fixed bits intBits).unpacked field = .float z ∧ binary64.isFinite z = true ∧
      ((fixed bits intBits).encode (.float z) = field ↔
        binary64.Exact ((fixed bits intBits).fieldCode field)) ∧
      (binary64.value z = (fixed bits intBits).fieldCode field / 2 ^ (bits - intBits) ↔
        binary64.Exact ((fixed bits intBits).fieldCode field)) := by
  obtain ⟨z, hz, hfinite, hvalue⟩ := toScalar_native_fixed hf field
  refine ⟨z, hz, hfinite, hz ▸ encode_native_fixed_iff hf hfield, ?_⟩
  rw [hvalue, div_left_inj' (by positivity), Int.cast_inj]
  exact roundedCode_eq_iff hf field

theorem value_unpacked_fixed (hf : (fixed bits intBits).validate = .ok ()) (field : Word) :
    ((fixed bits intBits).unpacked field).value =
      (fixed bits intBits).roundedCode field / 2 ^ (bits - intBits) := by
  obtain ⟨z, hz, -, hvalue⟩ := toScalar_native_fixed hf field
  rw [unpacked, hz]
  exact hvalue

theorem fieldCode_inj (hw : f.width ≤ 64) {a b : Word} (ha : a.toNat < 2 ^ f.width)
    (hb : b.toNat < 2 ^ f.width) (h : f.fieldCode a = f.fieldCode b) : a = b := by
  rw [← setWidth_setWidth_of_lt ha, ← setWidth_setWidth_of_lt hb, ← ofInt_fieldCode hw,
    ← ofInt_fieldCode hw, h]

theorem exists_fieldCode_eq_roundedCode (hf : f.validate = .ok ()) (hwide : 55 ≤ f.width) :
    ∃ a b : Word, a.toNat < 2 ^ f.width ∧ b.toNat < 2 ^ f.width ∧ a ≠ b ∧
      f.roundedCode a = f.roundedCode b := by
  have hpow : (2 : ℤ) ^ 54 ≤ 2 ^ (f.width - 1) := pow_le_pow_right₀ (by norm_num) (by omega)
  obtain ⟨ha, hcode⟩ :=
    fieldCode_ofInt (c := 2 ^ 53 + 1) (width_pos hf) (width_le hf) (by omega) (by omega)
  obtain ⟨hb, hcode'⟩ :=
    fieldCode_ofInt (c := 2 ^ 53) (width_pos hf) (width_le hf) (by omega) (by omega)
  refine ⟨_, _, ha, hb, ?_, ?_⟩
  · intro h
    rw [h, hcode'] at hcode
    exact absurd hcode (by decide)
  · rw [roundedCode, roundedCode, hcode, hcode']
    decide +kernel

/--
A fixed-point field comes back from its host type, and has its own number there, if and only if
binary64 has its code without rounding. All fields of a format do if and only if it has at most 54
bits.
-/
theorem unpacked_fixed_lossless_iff (hf : (fixed bits intBits).validate = .ok ()) :
    (∀ field : Word, field.toNat < 2 ^ bits →
      ∃ z : Word, (fixed bits intBits).unpacked field = .float z ∧ binary64.isFinite z = true ∧
        ((fixed bits intBits).encode (.float z) = field ↔
          binary64.Exact ((fixed bits intBits).fieldCode field)) ∧
        (binary64.value z = (fixed bits intBits).fieldCode field / 2 ^ (bits - intBits) ↔
          binary64.Exact ((fixed bits intBits).fieldCode field))) ∧
    ((∀ field : Word, field.toNat < 2 ^ bits →
        (fixed bits intBits).encode ((fixed bits intBits).unpacked field) = field) ↔ bits ≤ 54) ∧
    ((∀ a b : Word, a.toNat < 2 ^ bits → b.toNat < 2 ^ bits →
        ((fixed bits intBits).unpacked a).value = ((fixed bits intBits).unpacked b).value →
        a = b) ↔ bits ≤ 54) := by
  have hexact := exact_fieldCode_iff hf
  refine ⟨fun field hfield => unpacked_fixed hf hfield, ?_, ?_⟩
  · refine Iff.trans ?_ hexact
    exact forall₂_congr fun field hfield => encode_native_fixed_iff hf hfield
  · constructor
    · intro hinj
      by_contra! hwide
      obtain ⟨a, b, ha, hb, hne, h⟩ := exists_fieldCode_eq_roundedCode hf hwide
      apply hne
      apply hinj a b ha hb
      rw [value_unpacked_fixed hf, value_unpacked_fixed hf, h]
    · intro hnarrow a b ha hb h
      rw [value_unpacked_fixed hf, value_unpacked_fixed hf, div_left_inj' (by positivity),
        Int.cast_inj, (roundedCode_eq_iff hf a).mpr (hexact.mpr hnarrow a ha),
        (roundedCode_eq_iff hf b).mpr (hexact.mpr hnarrow b hb)] at h
      exact fieldCode_inj (width_le hf) ha hb h

theorem unpacked_fixed_lossless_54 :
    (fixed 54 2).validate = .ok () ∧
      ∀ field : Word, field.toNat < 2 ^ 54 → (fixed 54 2).encode ((fixed 54 2).unpacked field) = field :=
  ⟨rfl, (unpacked_fixed_lossless_iff rfl).2.1.mpr le_rfl⟩

theorem pack_unpackHost_fixed_rounds :
    (fixed 64 1).validate = .ok () ∧
      ∃ vs, (fixed 64 1).unpackHost #[0x01, 0, 0, 0, 0, 0, 0, 0x40] 0 = .ok vs ∧
        (fixed 64 1).pack vs.values = .ok #[0x00, 0, 0, 0, 0, 0, 0, 0x40] := by
  refine ⟨rfl, _, rfl, ?_⟩
  decide +kernel

end Fixed

end PackedStream.FieldFormat
