import PackedStream.Proofs.FloatFormat.Exact

namespace PackedStream

def truncated (v : ℚ) : ℤ := if v < 0 then ⌈v⌉ else ⌊v⌋

section Truncated

@[simp]
theorem truncated_intCast (n : ℤ) : truncated n = n := by
  simp [truncated]

theorem truncated_div (n : ℤ) {d : ℕ} (hd : 0 < d) : truncated (n / d) = n.tdiv d := by
  have hneg : (n : ℚ) / d < 0 ↔ n < 0 := by
    rw [div_lt_iff₀ (by exact_mod_cast hd), zero_mul, Int.cast_lt_zero]
  unfold truncated
  split
  case isTrue h =>
    have hn : 0 ≤ -n := by
      have := hneg.mp h
      omega
    have hfloor := Rat.floor_intCast_div_natCast (-n) d
    rw [Int.cast_neg, neg_div, Int.floor_neg] at hfloor
    rw [← neg_neg n, Int.neg_tdiv, Int.tdiv_eq_ediv_of_nonneg hn, ← hfloor, neg_neg, neg_neg]
  case isFalse h =>
    have hn : 0 ≤ n := not_lt.mp (mt hneg.mpr h)
    rw [Rat.floor_intCast_div_natCast, Int.tdiv_eq_ediv_of_nonneg hn]

theorem abs_truncated_le (v : ℚ) : |(truncated v : ℚ)| ≤ |v| := by
  unfold truncated
  split
  case isTrue h =>
    have hceil : ((⌈v⌉ : ℤ) : ℚ) ≤ 0 := by exact_mod_cast Int.ceil_le.mpr (by simpa using h.le)
    rw [abs_of_nonpos hceil, abs_of_neg h]
    exact neg_le_neg (Int.le_ceil v)
  case isFalse h =>
    have hfloor : (0 : ℚ) ≤ (⌊v⌋ : ℤ) := by exact_mod_cast Int.floor_nonneg.mpr (not_lt.mp h)
    rw [abs_of_nonneg hfloor, abs_of_nonneg (not_lt.mp h)]
    exact Int.floor_le v

theorem abs_sub_truncated_lt (v : ℚ) : |v - truncated v| < 1 := by
  unfold truncated
  split
  · rw [abs_lt]
    have hle := Int.le_ceil v
    have hlt := Int.ceil_lt_add_one v
    constructor <;> linarith
  · rw [abs_lt]
    have hle := Int.floor_le v
    have hlt := Int.lt_floor_add_one v
    constructor <;> linarith

end Truncated

namespace FloatFormat

variable {F : FloatFormat} {w : ℕ} {v : ℚ}

theorem integerPart_eq_truncated (x : BitVec w) : F.integerPart x = truncated (F.value x) := by
  have hcast : F.value x = F.unitCount x / ((2 ^ F.unitShift : ℕ) : ℚ) := by
    rw [value]
    push_cast
    rfl
  rw [integerPart_eq_tdiv, hcast, truncated_div _ (Nat.two_pow_pos _)]

theorem Exact.truncated (hF : F.Wide) (h : F.Exact v) : F.Exact (truncated v) := by
  obtain ⟨n, t, hn, hv⟩ := h.exists_steps
  obtain hle | hlt := le_or_gt F.unitShift t
  · have hint : v = (n * 2 ^ (t - F.unitShift) : ℤ) := by
      apply mul_right_cancel₀ (by positivity : (2 : ℚ) ^ F.unitShift ≠ 0)
      push_cast
      rw [hv, mul_assoc, ← pow_add, Nat.sub_add_cancel hle]
    rw [hint, truncated_intCast, ← hint]
    exact h
  · have hsmall : |v| ≤ 2 ^ (F.fractionBits + 1) := by
      have hcast : |(n : ℚ)| ≤ 2 ^ (F.fractionBits + 1) := by
        rw [← Int.cast_abs, Int.abs_eq_natAbs]
        exact_mod_cast hn
      apply le_of_mul_le_mul_right _ (by positivity : (0 : ℚ) < 2 ^ F.unitShift)
      calc |v| * 2 ^ F.unitShift = |(n : ℚ)| * 2 ^ t := by
            rw [← abs_of_pos (by positivity : (0 : ℚ) < 2 ^ F.unitShift), ← abs_mul, hv, abs_mul,
              abs_of_pos (by positivity : (0 : ℚ) < 2 ^ t)]
        _ ≤ 2 ^ (F.fractionBits + 1) * 2 ^ F.unitShift :=
            mul_le_mul hcast (pow_le_pow_right₀ (by norm_num) hlt.le) (by positivity) (by positivity)
    apply exact_intCast hF
    have habs := (abs_truncated_le v).trans hsmall
    rw [← Int.cast_abs, Int.abs_eq_natAbs] at habs
    exact_mod_cast habs

end FloatFormat

end PackedStream
