import PackedStream.Proofs.Grid

namespace PackedStream.FieldFormat

open FloatFormat (binary32 binary64 wide_binary32 wide_binary64 magnitudeBits_binary32
  magnitudeBits_binary64)

variable {f : FieldFormat} {x : Word}

section Float32

def outermost (b : Bool) : Word :=
  binary32.convert binary64 (binary32.join b (binary32.infinity - 1) : BitVec 32)

theorem value_outermost (b : Bool) :
    binary64.isFinite (outermost b) = true ∧ binary32.Exact (binary64.value (outermost b)) ∧
      binary64.value (outermost b) =
        (FloatFormat.signed b (binary32.units (binary32.infinity - 1)) : ℤ) /
          2 ^ binary32.unitShift := by
  have hlt : binary32.infinity - 1 < binary32.infinity := by decide
  have hexact := FloatFormat.exact_value (FloatFormat.isFinite_join magnitudeBits_binary32 hlt b)
  obtain ⟨hfinite, hvalue⟩ := FloatFormat.value_convert magnitudeBits_binary64
    (FloatFormat.isFinite_join magnitudeBits_binary32 hlt b) hexact.binary64
  rw [outermost, hvalue]
  refine ⟨hfinite, hexact, ?_⟩
  rw [FloatFormat.value, FloatFormat.unitCount_join magnitudeBits_binary32 hlt]

theorem value_greatest_float32 :
    binary64.isFinite float32.greatest = true ∧ binary64.value float32.greatest =
      binary32.units (binary32.infinity - 1) / 2 ^ binary32.unitShift :=
  ⟨(value_outermost false).1, (value_outermost false).2.2⟩

theorem value_least_float32 :
    binary64.isFinite float32.least = true ∧
      binary64.value float32.least = -binary64.value float32.greatest := by
  obtain ⟨hfinite, -, hvalue⟩ := value_outermost true
  refine ⟨hfinite, hvalue.trans ?_⟩
  rw [value_greatest_float32.2, ← neg_div]
  congr 1

theorem represents_float32_iff : float32.represents x = true ↔
    binary64.isFinite x = true ∧ |binary64.value x| ≤ binary64.value float32.greatest := by
  obtain ⟨hgreatest, -⟩ := value_greatest_float32
  obtain ⟨hleast, hvalue⟩ := value_least_float32
  constructor
  · intro h
    obtain ⟨hlow, hhigh⟩ := bounds_of_represents h
    have hx := FloatFormat.isFinite_of_le hleast hgreatest hlow hhigh
    rw [FloatFormat.le_iff hleast hx, hvalue] at hlow
    rw [FloatFormat.le_iff hx hgreatest] at hhigh
    exact ⟨hx, abs_le.mpr ⟨hlow, hhigh⟩⟩
  · rintro ⟨hx, habs⟩
    obtain ⟨hlow, hhigh⟩ := abs_le.mp habs
    rw [← hvalue, ← FloatFormat.le_iff hleast hx] at hlow
    rw [← FloatFormat.le_iff hx hgreatest] at hhigh
    simp [represents, hlow, hhigh]

theorem decode_encode_float32 (x : Word) :
    float32.decode (float32.encode (.float x)) =
      .float (binary32.convert binary64 (binary64.convert binary32 x : BitVec 32)) := by
  have hfield : (float32.encode (.float x)).setWidth 32 = binary64.convert binary32 x := by
    rw [encode_eq_setWidth]
    change (((((binary64.convert binary32 x : BitVec 32).setWidth 64).setWidth 32).setWidth
      64).setWidth 32) = _
    simp only [BitVec.setWidth_setWidth_of_le _ (by decide : 32 ≤ 64), BitVec.setWidth_eq]
  rw [decode, hfield]

theorem decode_encode_float32_iff (hx : binary64.isFinite x = true)
    (habs : |binary64.value x| ≤ binary64.value float32.greatest) :
    (float32.decode (float32.encode (.float x))).value = binary64.value x ↔
      binary32.Exact (binary64.value x) := by
  have hfinite : binary32.isFinite (binary64.convert binary32 x : BitVec 32) = true := by
    rw [value_greatest_float32.2, le_div_iff₀ (by positivity)] at habs
    exact FloatFormat.isFinite_convert magnitudeBits_binary32 (by decide) hx habs
  have hback := (FloatFormat.value_convert magnitudeBits_binary64 hfinite
    (FloatFormat.exact_value hfinite).binary64).2
  rw [decode_encode_float32, Scalar.value_float, hback]
  constructor
  · intro h
    rw [← h]
    exact FloatFormat.exact_value hfinite
  · intro h
    exact (FloatFormat.value_convert magnitudeBits_binary32 hx h).2

theorem abs_le_greatest_of_exact {v : ℚ} (h : binary32.Exact v) :
    |v| ≤ binary64.value float32.greatest := by
  obtain ⟨_, ⟨m, hm, rfl⟩, hv⟩ := h
  rw [value_greatest_float32.2, le_div_iff₀ (by positivity), hv]
  exact_mod_cast binary32.units_strictMono.monotone (Nat.le_sub_one_of_lt hm)

end Float32

section Bipolar

theorem value_ofInt_one (b : Bool) :
    binary64.value (binary64.ofInt (FloatFormat.signed b 1) : Word) =
      (FloatFormat.signed b 1 : ℤ) :=
  (FloatFormat.value_ofInt magnitudeBits_binary64
    (FloatFormat.exact_intCast wide_binary64 (by cases b <;> decide))).2

theorem eq_ofInt_one_iff :
    (x = binary64.ofInt (-1) ∨ x = binary64.ofInt 1) ↔
      binary64.value x = -1 ∨ binary64.value x = 1 := by
  have hpattern (b : Bool) : x = binary64.ofInt (FloatFormat.signed b 1) ↔
      binary64.value x = (FloatFormat.signed b 1 : ℤ) := by
    rw [← value_ofInt_one]
    refine ⟨congrArg _, fun h => FloatFormat.eq_of_value_eq rfl h ?_⟩
    rw [h, value_ofInt_one]
    cases b <;> decide
  have hminus := hpattern true
  have hplus := hpattern false
  simp only [FloatFormat.signed, Bool.false_eq_true, if_true, if_false, Nat.cast_one, Int.cast_neg,
    Int.cast_one] at hminus hplus
  rw [hminus, hplus]

theorem represents_bipolar_iff : bipolar.represents x = true ↔
    binary64.value x = -1 ∨ binary64.value x = 1 := by
  rw [← eq_ofInt_one_iff]
  constructor
  · intro h
    simp only [represents, Bool.and_eq_true, Bool.or_eq_true, beq_iff_eq] at h
    exact h.2
  · rintro (rfl | rfl) <;> decide +kernel

theorem decode_encode_bipolar (h : binary64.value x = -1 ∨ binary64.value x = 1) :
    binary64.isFinite x = true ∧
      (bipolar.decode (bipolar.encode (.float x))).value = binary64.value x := by
  have hcode (b : Bool) :
      binary64.isFinite (binary64.ofInt (FloatFormat.signed b 1) : Word) = true ∧
      bipolar.decode (bipolar.encode (.float (binary64.ofInt (FloatFormat.signed b 1)))) =
        .int (BitVec.ofInt 64 (FloatFormat.signed b 1)) := by
    cases b <;> decide +kernel
  have hvalue (b : Bool) : (Scalar.int (BitVec.ofInt 64 (FloatFormat.signed b 1))).value =
      binary64.value (binary64.ofInt (FloatFormat.signed b 1) : Word) := by
    rw [value_ofInt_one]
    cases b <;> rfl
  rw [← eq_ofInt_one_iff] at h
  obtain rfl | rfl := h
  · exact ⟨(hcode true).1, (congrArg _ (hcode true).2).trans (hvalue true)⟩
  · exact ⟨(hcode false).1, (congrArg _ (hcode false).2).trans (hvalue false)⟩

end Bipolar

section Test

/-- What the test lets through beside the numbers that a format is made for. -/
def Admits (f : FieldFormat) (v : ℚ) : Prop :=
  match f with
  | float32 => |v| ≤ binary64.value float32.greatest
  | bipolar => False
  | f => 53 < f.magnitudeWidth ∧ v = 2 ^ f.magnitudeWidth / 2 ^ f.fracBits

theorem admits_iff (hfloat : f ≠ float32) (hbi : f ≠ bipolar) {v : ℚ} :
    f.Admits v ↔ 53 < f.magnitudeWidth ∧ v = 2 ^ f.magnitudeWidth / 2 ^ f.fracBits := by
  cases f with
  | float32 => exact absurd rfl hfloat
  | bipolar => exact absurd rfl hbi
  | uint | int | fixed | binary | ternary => rfl

variable (hf : f.validate = .ok ())

include hf in
theorem represents_iff : f.represents x = true ↔ binary64.isFinite x = true ∧
    (f.Denotes (binary64.value x) ∨ f.Admits (binary64.value x)) := by
  by_cases hfloat : f = float32
  · subst hfloat
    rw [represents_float32_iff]
    exact and_congr_right fun _ => ⟨.inr, fun h => h.elim abs_le_greatest_of_exact id⟩
  by_cases hbi : f = bipolar
  · subst hbi
    rw [represents_bipolar_iff]
    exact ⟨fun h => ⟨(decode_encode_bipolar h).1, .inl h⟩, fun h => h.2.elim id False.elim⟩
  rw [represents_grid_iff hf hfloat hbi, denotes_iff hfloat hbi, admits_iff hfloat hbi]
  apply and_congr_right'
  constructor
  · rintro ⟨n, hlow, hn, hlt | ⟨hwide, rfl⟩⟩
    · exact .inl ⟨n, hlow, hlt, hn⟩
    · exact .inr ⟨hwide, by simpa using hn⟩
  · rintro (⟨n, hlow, hlt, hn⟩ | ⟨hwide, hn⟩)
    · exact ⟨n, hlow, hn, .inl hlt⟩
    · have hlow := (lowest_bounds hf).2
      exact ⟨2 ^ f.magnitudeWidth, hlow.trans (by positivity), by simpa using hn,
        .inr ⟨hwide, rfl⟩⟩

include hf in
theorem decode_encode_eq_iff (h : f.represents x = true) :
    (f.decode (f.encode (.float x))).value = binary64.value x ↔ f.Denotes (binary64.value x) := by
  by_cases hfloat : f = float32
  · subst hfloat
    obtain ⟨hx, habs⟩ := represents_float32_iff.mp h
    exact decode_encode_float32_iff hx habs
  by_cases hbi : f = bipolar
  · subst hbi
    have hvalue := represents_bipolar_iff.mp h
    exact iff_of_true (decode_encode_bipolar hvalue).2 hvalue
  obtain ⟨hx, n, hlow, hn, hhigh⟩ := (represents_grid_iff hf hfloat hbi).mp h
  rw [decode_encode_grid_iff hf hfloat hbi hx hn hlow (by omega), denotes_iff hfloat hbi]
  constructor
  · intro hlt
    exact ⟨n, hlow, hlt, hn⟩
  · rintro ⟨m, -, hlt, hm⟩
    rw [hn, div_left_inj' (by positivity), Int.cast_inj] at hm
    exact hm ▸ hlt

include hf in
theorem denotes_least :
    binary64.isFinite f.least = true ∧ f.Denotes (binary64.value f.least) := by
  by_cases hfloat : f = float32
  · subst hfloat
    exact ⟨value_least_float32.1, (value_outermost true).2.1⟩
  by_cases hbi : f = bipolar
  · subst hbi
    have h : binary64.value bipolar.least = -1 ∨ binary64.value bipolar.least = 1 :=
      eq_ofInt_one_iff.mp (.inl rfl)
    exact ⟨(decode_encode_bipolar h).1, h⟩
  obtain ⟨hfinite, hvalue⟩ := value_least hf hfloat hbi
  have hpos : (0 : ℤ) < 2 ^ f.magnitudeWidth := by positivity
  exact ⟨hfinite, (denotes_iff hfloat hbi).mpr
    ⟨f.lowest, le_rfl, (lowest_bounds hf).2.trans_lt hpos, hvalue⟩⟩

include hf in
theorem represents_least : f.represents f.least = true :=
  (represents_iff hf).mpr ⟨(denotes_least hf).1, .inl (denotes_least hf).2⟩

include hf in
theorem denotes_greatest : binary64.isFinite f.greatest = true ∧
    (if f.magnitudeWidth ≤ 53 then f.Denotes (binary64.value f.greatest)
      else f.Admits (binary64.value f.greatest) ∧ ¬ f.Denotes (binary64.value f.greatest)) := by
  by_cases hfloat : f = float32
  · subst hfloat
    exact ⟨value_greatest_float32.1, (value_outermost false).2.1⟩
  by_cases hbi : f = bipolar
  · subst hbi
    have h : binary64.value bipolar.greatest = -1 ∨ binary64.value bipolar.greatest = 1 :=
      eq_ofInt_one_iff.mp (.inr rfl)
    exact ⟨(decode_encode_bipolar h).1, h⟩
  obtain ⟨hfinite, hvalue⟩ := value_greatest hf hfloat hbi
  refine ⟨hfinite, ?_⟩
  split
  case isTrue ht =>
    rw [if_pos ht] at hvalue
    have hpos : (0 : ℤ) < 2 ^ f.magnitudeWidth := by positivity
    have hlow := (lowest_bounds hf).2
    exact (denotes_iff hfloat hbi).mpr
      ⟨2 ^ f.magnitudeWidth - 1, by omega, by omega, by simpa using hvalue⟩
  case isFalse ht =>
    rw [if_neg ht] at hvalue
    refine ⟨(admits_iff hfloat hbi).mpr ⟨not_le.mp ht, hvalue⟩, ?_⟩
    rw [denotes_iff hfloat hbi]
    rintro ⟨n, -, hlt, hn⟩
    rw [hvalue, div_left_inj' (by positivity)] at hn
    have hcast : n = 2 ^ f.magnitudeWidth := by exact_mod_cast hn.symm
    omega

include hf in
theorem represents_greatest : f.represents f.greatest = true ∧
    (f.Denotes (binary64.value f.greatest) ↔ f.magnitudeWidth ≤ 53) := by
  obtain ⟨hfinite, h⟩ := denotes_greatest hf
  by_cases ht : f.magnitudeWidth ≤ 53
  · rw [if_pos ht] at h
    exact ⟨(represents_iff hf).mpr ⟨hfinite, .inl h⟩, iff_of_true h ht⟩
  · rw [if_neg ht] at h
    exact ⟨(represents_iff hf).mpr ⟨hfinite, .inr h.1⟩, iff_of_false h.2 ht⟩

theorem exists_represents_float32 :
    ∃ x, float32.represents x = true ∧ ¬ float32.Denotes (binary64.value x) := by
  obtain ⟨hx, hvalue⟩ := FloatFormat.value_ofInt (w := 64) magnitudeBits_binary64
    (FloatFormat.exact_intCast wide_binary64 (n := 2 ^ 24 + 1) (by decide))
  refine ⟨_, represents_float32_iff.mpr ⟨hx, ?_⟩, ?_⟩
  · have hnext : binary32.Exact ((2 ^ 25 : ℚ)) :=
      FloatFormat.exact_two_pow wide_binary32 (by decide)
    refine le_trans ?_ (abs_le_greatest_of_exact hnext)
    rw [hvalue]
    norm_num
  · rw [hvalue]
    exact FloatFormat.not_exact_of_odd (by decide) (by decide)

include hf in
/--
The test for a number that a format has lets through the numbers that the format is made for, and
what `Admits` names. Of all these a field keeps just the numbers that the format is made for, so
that the test is sound for every format but binary32 and those with more than 53 bits beside the
sign. In those it is the greatest number itself that gets lost.
-/
theorem represents_sound_iff :
    (∀ x, f.represents x = true ↔ binary64.isFinite x = true ∧
      (f.Denotes (binary64.value x) ∨ f.Admits (binary64.value x))) ∧
    (∀ x, f.represents x = true →
      ((f.decode (f.encode (.float x))).value = binary64.value x ↔
        f.Denotes (binary64.value x))) ∧
    ((∀ x, f.represents x = true → (f.decode (f.encode (.float x))).value = binary64.value x) ↔
      f ≠ float32 ∧ f.magnitudeWidth ≤ 53) ∧
    (f.represents f.least = true ∧
      (f.decode (f.encode (.float f.least))).value = binary64.value f.least) ∧
    f.represents f.greatest = true ∧
      ((f.decode (f.encode (.float f.greatest))).value = binary64.value f.greatest ↔
        f.magnitudeWidth ≤ 53) := by
  have hleast := represents_least hf
  obtain ⟨hgreatest, hnarrow⟩ := represents_greatest hf
  have hkept {x : Word} (h : f.represents x = true) := decode_encode_eq_iff hf h
  refine ⟨fun x => represents_iff hf, fun x => hkept, ?_, ⟨hleast, (hkept hleast).mpr
    (denotes_least hf).2⟩, hgreatest, (hkept hgreatest).trans hnarrow⟩
  constructor
  · intro h
    refine ⟨?_, hnarrow.mp ((hkept hgreatest).mp (h _ hgreatest))⟩
    rintro rfl
    obtain ⟨x, hx, hlost⟩ := exists_represents_float32
    exact hlost ((hkept hx).mp (h x hx))
  · rintro ⟨hfloat, ht⟩ x hx
    refine (hkept hx).mpr (((represents_iff hf).mp hx).2.resolve_right ?_)
    intro hadmits
    by_cases hbi : f = bipolar
    · subst hbi
      exact hadmits
    · exact absurd ((admits_iff hfloat hbi).mp hadmits).1 (not_lt.mpr ht)

theorem represents_sound_int54 :
    (int 54).validate = .ok () ∧ ∀ x, (int 54).represents x = true →
      ((int 54).decode ((int 54).encode (.float x))).value = binary64.value x :=
  ⟨rfl, (represents_sound_iff rfl).2.2.1.mpr ⟨by decide, by decide⟩⟩

theorem represents_not_kept :
    ((uint 64).validate = .ok () ∧ (uint 64).represents 0x43F0000000000000 = true ∧
      ((uint 64).decode ((uint 64).encode (.float 0x43F0000000000000))).value ≠
        binary64.value (0x43F0000000000000 : Word)) ∧
    (float32.validate = .ok () ∧ float32.represents 0x3FB999999999999A = true ∧
      (float32.decode (float32.encode (.float 0x3FB999999999999A))).value ≠
        binary64.value (0x3FB999999999999A : Word)) := by
  refine ⟨⟨rfl, by decide +kernel, ?_⟩, rfl, by decide +kernel, ?_⟩
  · have hfield : (uint 64).decode ((uint 64).encode (.float 0x43F0000000000000)) =
        .uint (BitVec.allOnes 64) := by decide +kernel
    have hvalue : binary64.value (0x43F0000000000000 : Word) = (2 ^ 64 : ℤ) :=
      FloatFormat.value_eq_intCast_iff.mpr (by decide +kernel)
    rw [hfield, hvalue]
    decide
  · have hfield : float32.decode (float32.encode (.float 0x3FB999999999999A)) =
        .float 0x3FB99999A0000000 := by decide +kernel
    rw [hfield, Scalar.value_float, Ne, FloatFormat.value, FloatFormat.value,
      div_left_inj' (by positivity), Int.cast_inj]
    decide +kernel

end Test

end PackedStream.FieldFormat
