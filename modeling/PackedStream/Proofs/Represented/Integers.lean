import PackedStream.Proofs.FloatFormat.Integers
import PackedStream.Proofs.Represented

namespace PackedStream.FieldFormat

open FloatFormat (binary64 wide_binary64 magnitudeBits_binary64)

variable {f : FieldFormat} {i : ℤ}

/-- The integers that the test of a format lets through once they have been rounded to binary64. -/
def Passes (f : FieldFormat) (i : ℤ) : Prop :=
  f.lowest - (if f.signed = true then binary64.reach f.magnitudeWidth else 0 : ℕ) ≤ i ∧
    (i < 2 ^ f.magnitudeWidth ∨
      53 < f.magnitudeWidth ∧ i ≤ 2 ^ f.magnitudeWidth + binary64.reach f.magnitudeWidth)

instance (f : FieldFormat) (i : ℤ) : Decidable (f.Passes i) :=
  inferInstanceAs (Decidable (_ ∧ (_ ∨ _ ∧ _)))

section Bounds

variable (hf : f.validate = .ok ()) (hint : f.isInteger = true) (hbi : f ≠ bipolar)

theorem fracBits_of_isInteger (hint : f.isInteger = true) : f.fracBits = 0 := by
  cases f with
  | fixed => cases hint
  | uint | int | float32 | binary | ternary | bipolar => rfl

include hf in
theorem magnitudeWidth_lt : f.magnitudeWidth < 2 ^ (binary64.exponentBits - 1) :=
  lt_of_le_of_lt (magnitudeWidth_le hf) (by decide)

include hf hint hbi in
theorem lowest_le_value_ofInt_iff : f.lowest ≤ binary64.value (binary64.ofInt i : Word) ↔
    f.lowest - (if f.signed = true then binary64.reach f.magnitudeWidth else 0 : ℕ) ≤ i := by
  have hsmall {a : ℤ} (ha : a.natAbs ≤ 1) :
      a ≤ binary64.value (binary64.ofInt i : Word) ↔ a ≤ i := by
    have hpow : 2 ≤ 2 ^ (binary64.fractionBits + 1) := by decide
    exact FloatFormat.le_value_ofInt_iff magnitudeBits_binary64 wide_binary64 (by omega) (by omega)
  cases f with
  | uint | binary =>
    simpa [lowest, signed] using hsmall (a := 0) (by decide)
  | ternary =>
    have hreach : (if ternary.signed = true then binary64.reach ternary.magnitudeWidth else 0) = 0 :=
      rfl
    simpa [lowest, hreach] using hsmall (a := -1) (by decide)
  | int bits =>
    have h := FloatFormat.neg_two_pow_le_value_ofInt_iff (w := 64) magnitudeBits_binary64
      wide_binary64 (by decide) (magnitudeWidth_lt hf) (n := i)
    simpa [lowest, signed, magnitudeWidth] using h
  | bipolar => exact absurd rfl hbi
  | fixed | float32 => cases hint

include hf in
theorem value_ofInt_le_two_pow_iff :
    binary64.value (binary64.ofInt i : Word) ≤ 2 ^ f.magnitudeWidth ↔
      i ≤ 2 ^ f.magnitudeWidth + binary64.reach f.magnitudeWidth :=
  FloatFormat.value_ofInt_le_two_pow_iff magnitudeBits_binary64 wide_binary64 (by decide)
    (magnitudeWidth_lt hf)

theorem value_ofInt_lt_two_pow_iff (ht : f.magnitudeWidth ≤ 53) :
    binary64.value (binary64.ofInt i : Word) ≤ ((2 ^ f.magnitudeWidth - 1 : ℤ) : ℚ) ↔
      i < 2 ^ f.magnitudeWidth := by
  have hpow : 2 ^ f.magnitudeWidth ≤ 2 ^ 53 := Nat.pow_le_pow_right (by decide) ht
  have hcast : (2 : ℤ) ^ f.magnitudeWidth = (2 ^ f.magnitudeWidth : ℕ) := by norm_cast
  have hpos : 0 < 2 ^ f.magnitudeWidth := Nat.two_pow_pos _
  have hbits : binary64.fractionBits + 1 = 53 := rfl
  rw [hcast]
  generalize 2 ^ f.magnitudeWidth = a at hpow hpos ⊢
  rw [FloatFormat.value_ofInt_le_iff magnitudeBits_binary64 wide_binary64 (by rw [hbits]; omega)
    (by rw [hbits]; omega), Int.le_sub_one_iff]

include hf hint hbi in
theorem represents_ofInt_iff (hlow : -2 ^ 64 ≤ i) (hhigh : i ≤ 2 ^ 64) :
    f.represents (binary64.ofInt i) = true ↔ f.Passes i := by
  have hfloat : f ≠ float32 := by
    rintro rfl
    cases hint
  obtain ⟨hfinite, -, -⟩ := FloatFormat.value_ofInt_bounds (w := 64) magnitudeBits_binary64
    wide_binary64 (by decide) hlow hhigh
  obtain ⟨k, hk⟩ := FloatFormat.exists_int_value_ofInt (w := 64) magnitudeBits_binary64
    wide_binary64 i
  have hbelow := lowest_le_value_ofInt_iff hf hint hbi (i := i)
  rw [hk, Int.cast_le] at hbelow
  -- The image is the integer `k`, and each bound on `k` is one on `i`.
  have habove : (k < 2 ^ f.magnitudeWidth ∨ 53 < f.magnitudeWidth ∧ k = 2 ^ f.magnitudeWidth) ↔
      (i < 2 ^ f.magnitudeWidth ∨
        53 < f.magnitudeWidth ∧ i ≤ 2 ^ f.magnitudeWidth + binary64.reach f.magnitudeWidth) := by
    obtain ht | ht := le_or_gt f.magnitudeWidth 53
    · have h := value_ofInt_lt_two_pow_iff ht (i := i)
      rw [hk, Int.cast_le] at h
      omega
    · have h := value_ofInt_le_two_pow_iff hf (i := i)
      rw [hk, ← Int.cast_ofNat, ← Int.cast_pow, Int.cast_le] at h
      omega
  rw [represents_grid_iff hf hfloat hbi, Passes, ← hbelow, ← habove, fracBits_of_isInteger hint]
  constructor
  · rintro ⟨-, n, hn⟩
    rw [pow_zero, div_one, hk, Int.cast_inj] at hn
    obtain ⟨hlow, rfl, hhigh⟩ := hn
    exact ⟨hlow, hhigh⟩
  · rintro ⟨hlow, hhigh⟩
    exact ⟨hfinite, k, hlow, by rw [pow_zero, div_one, hk], hhigh⟩

include hf hint in
theorem Passes.holds (hwidth : f.width ≤ 53 ∨ f = uint 64) (h : f.Passes i) (hi : i < 2 ^ 64) :
    f.Holds i := by
  obtain hwidth | rfl := hwidth
  · have hnarrow : f.magnitudeWidth ≤ 53 := by
      unfold magnitudeWidth
      split <;> omega
    have hexact : (if f.signed = true then binary64.reach f.magnitudeWidth else 0) = 0 := by
      split
      case isTrue hs =>
        have hpos := width_pos hf
        rw [magnitudeWidth, if_pos hs]
        exact if_neg (by change ¬ 52 < _; omega)
      case isFalse => rfl
    obtain ⟨hlow, hhigh⟩ := h
    rw [hexact, Nat.cast_zero, sub_zero] at hlow
    exact holds_of_lowest_le hlow (hhigh.resolve_right (by omega))
  · exact ⟨by simpa [lowest, signed] using h.1, hi⟩

include hf hint hbi in
theorem exists_passes_not_holds (hwidth : 53 < f.width) (hne : f ≠ uint 64) :
    ∃ i : ℤ, -2 ^ 63 ≤ i ∧ i < 2 ^ 64 ∧ f.Passes i ∧ ¬ f.Holds i := by
  have hw := width_le hf
  have habove (hm : 53 < f.magnitudeWidth) (hlt : f.magnitudeWidth < 64) :
      ∃ i : ℤ, -2 ^ 63 ≤ i ∧ i < 2 ^ 64 ∧ f.Passes i ∧ ¬ f.Holds i := by
    have hpos : (0 : ℤ) < 2 ^ f.magnitudeWidth := by positivity
    have hpow : (2 : ℤ) ^ f.magnitudeWidth < 2 ^ 64 := pow_lt_pow_right₀ (by norm_num) hlt
    have hlow := (lowest_bounds hf).2
    refine ⟨2 ^ f.magnitudeWidth, by omega, hpow, ⟨by omega, .inr ⟨hm, by omega⟩⟩, ?_⟩
    unfold Holds magnitudeWidth
    split <;> omega
  cases f with
  | uint bits =>
    have hne64 : bits ≠ 64 := fun h => hne (h ▸ rfl)
    have hle : bits ≤ 64 := hw
    exact habove hwidth (by change bits < 64; omega)
  | int bits =>
    obtain rfl | hgt := Nat.eq_or_lt_of_le hwidth
    · exact ⟨-2 ^ 53 - 1, by decide⟩
    · have hle : bits ≤ 64 := hw
      have hgt' : 54 < bits := hgt
      exact habove (by change 53 < bits - 1; omega) (by change bits - 1 < 64; omega)
  | binary | ternary => exact absurd hwidth (by decide)
  | bipolar => exact absurd rfl hbi
  | fixed | float32 => cases hint

end Bounds

end PackedStream.FieldFormat
