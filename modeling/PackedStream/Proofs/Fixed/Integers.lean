import PackedStream.Proofs.Fixed

/-!
An integer goes into a fixed-point field left of the binary point. The shift and the cut to the
width both lose high bits alone, so the integer wraps to what `intBits` bits hold, and right of the
point are zeros.
-/

namespace PackedStream

theorem ofInt_shiftLeft {n : ℕ} (i : ℤ) (k : ℕ) :
    BitVec.ofInt n i <<< k = BitVec.ofInt n (i * 2 ^ k) := by
  have hpow : BitVec.twoPow n k = BitVec.ofInt n (2 ^ k) := by
    apply BitVec.eq_of_toNat_eq
    rw [BitVec.toNat_twoPow]
    norm_cast
  rw [BitVec.shiftLeft_eq_mul_twoPow, hpow, BitVec.ofInt_mul]

namespace FieldFormat

variable {f : FieldFormat} {bits intBits : ℕ} {t : HostType}

theorem fieldCode_encode (hf : f.validate = .ok ()) {s : Scalar} {i : ℤ}
    (hs : f.code s = BitVec.ofInt 64 i) : f.fieldCode (f.encode s) ≡ i [ZMOD 2 ^ f.width] := by
  have hw := width_le hf
  apply modEq_of_ofInt_eq
  rw [ofInt_fieldCode hw, encode_eq_setWidth, hs, BitVec.setWidth_setWidth_of_le _ hw,
    BitVec.setWidth_eq, setWidth_ofInt hw]

theorem code_fixed_integer (ht : t.isInteger = true) (v : t.Value) :
    (fixed bits intBits).code (t.toScalar v) =
      BitVec.ofInt 64 (t.toInt v * 2 ^ (bits - intBits)) := by
  have hshift : (fixed bits intBits).code (t.toScalar v) =
      BitVec.ofInt 64 (t.toInt v) <<< (bits - intBits) := by
    obtain h | h := HostType.toScalar_integer ht v
    · rw [h]
      rfl
    · rw [h]
      rfl
  rw [hshift, ofInt_shiftLeft]

theorem holds_fixed_iff (hf : (fixed bits intBits).validate = .ok ()) {w : ℤ} :
    (fixed bits intBits).Holds (2 ^ (bits - intBits) * w) ↔ (int intBits).Holds w := by
  obtain ⟨-, -, hpos, hle⟩ := validate_fixed_iff.mp hf
  have hscale : (0 : ℤ) < 2 ^ (bits - intBits) := by positivity
  have hsplit : (2 : ℤ) ^ (bits - 1) = 2 ^ (bits - intBits) * 2 ^ (intBits - 1) := by
    rw [← pow_add, Nat.sub_add_sub_cancel hle hpos]
  change -2 ^ (bits - 1) ≤ _ ∧ _ < (2 : ℤ) ^ (bits - 1) ↔
    -2 ^ (intBits - 1) ≤ w ∧ w < 2 ^ (intBits - 1)
  rw [hsplit, ← mul_neg, Int.mul_le_mul_left hscale, Int.mul_lt_mul_left hscale]

theorem fieldCode_fixed_integer (hf : (fixed bits intBits).validate = .ok ())
    (ht : t.isInteger = true) (v : t.Value) {w : ℤ} (hmod : w ≡ t.toInt v [ZMOD 2 ^ intBits])
    (hw : (int intBits).Holds w) :
    (fixed bits intBits).fieldCode ((fixed bits intBits).encode (t.toScalar v)) =
      2 ^ (bits - intBits) * w := by
  obtain ⟨-, -, -, hle⟩ := validate_fixed_iff.mp hf
  have hcode := fieldCode_encode hf (code_fixed_integer ht v)
  have hscaled : 2 ^ (bits - intBits) * w ≡ t.toInt v * 2 ^ (bits - intBits) [ZMOD 2 ^ bits] := by
    have h := hmod.mul_left' (c := 2 ^ (bits - intBits))
    rwa [← pow_add, Nat.sub_add_cancel hle, mul_comm _ (t.toInt v)] at h
  have hfield : (fixed bits intBits).Holds
      ((fixed bits intBits).fieldCode ((fixed bits intBits).encode (t.toScalar v))) :=
    fieldCode_bounds (width_le hf) _
  exact hfield.eq_of_modEq (width_pos hf) ((holds_fixed_iff hf).mpr hw) (hcode.trans hscaled.symm)

/--
The field of an integer is `2 ^ (bits - intBits)` times the one number that `intBits` bits hold and
that is congruent to it, for integers of all host types. An integer that `intBits` bits hold is
scaled as it is.
-/
theorem fieldCode_encode_integer (hf : (fixed bits intBits).validate = .ok ())
    (ht : t.isInteger = true) (v : t.Value) :
    (fixed bits intBits).fracBits < 64 ∧
    (∃! w : ℤ, w ≡ t.toInt v [ZMOD 2 ^ intBits] ∧ (int intBits).Holds w) ∧
    (∀ w : ℤ, w ≡ t.toInt v [ZMOD 2 ^ intBits] → (int intBits).Holds w →
      (fixed bits intBits).fieldCode ((fixed bits intBits).encode (t.toScalar v)) =
        2 ^ (bits - intBits) * w) ∧
    ((int intBits).Holds (t.toInt v) →
      (fixed bits intBits).fieldCode ((fixed bits intBits).encode (t.toScalar v)) =
        t.toInt v * 2 ^ (bits - intBits)) := by
  obtain ⟨-, hbits, hpos, hle⟩ := validate_fixed_iff.mp hf
  refine ⟨?_, existsUnique_holds (f := int intBits) hpos _,
    fun w => fieldCode_fixed_integer hf ht v, ?_⟩
  · change bits - intBits < 64
    omega
  · intro hv
    rw [fieldCode_fixed_integer hf ht v rfl hv, mul_comm]

theorem fieldCode_encode_integer_64 :
    (fixed 64 1).validate = .ok () ∧ HostType.u64.isInteger = true ∧
      (-1 : ℤ) ≡ HostType.u64.toInt (0xFFFFFFFFFFFFFFFF : Word) [ZMOD 2 ^ 1] ∧
      (int 1).Holds (-1) ∧
      (fixed 64 1).fieldCode ((fixed 64 1).encode (.uint 0xFFFFFFFFFFFFFFFF)) = 2 ^ 63 * -1 := by
  have hmod : (-1 : ℤ) ≡ HostType.u64.toInt (0xFFFFFFFFFFFFFFFF : Word) [ZMOD 2 ^ 1] := by decide
  have hw : (int 1).Holds (-1) := by decide
  exact ⟨rfl, rfl, hmod, hw, (fieldCode_encode_integer (t := .u64) rfl rfl
    (0xFFFFFFFFFFFFFFFF : Word)).2.2.1 (-1) hmod hw⟩

end FieldFormat

end PackedStream
