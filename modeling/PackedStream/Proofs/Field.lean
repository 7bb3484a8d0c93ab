import PackedStream.Field
import PackedStream.Proofs.Bytes

namespace PackedStream.FieldFormat

variable {f : FieldFormat}

theorem checkWidth_eq_ok_iff {bits : ℕ} : checkWidth bits = .ok () ↔ 0 < bits ∧ bits ≤ 64 := by
  unfold checkWidth maxWidth
  split
  case isTrue h =>
    simp only [reduceCtorEq, false_iff]
    omega
  case isFalse h =>
    simp only [true_iff]
    omega

theorem width_of_validate (hf : f.validate = .ok ()) : 0 < f.width ∧ f.width ≤ 64 := by
  cases f with
  | uint bits => exact checkWidth_eq_ok_iff.mp hf
  | int bits => exact checkWidth_eq_ok_iff.mp hf
  | fixed bits intBits =>
    cases hw : checkWidth bits with
    | error e => simp [validate, hw, bind, Except.bind] at hf
    | ok _ => exact checkWidth_eq_ok_iff.mp hw
  | float32 | binary | ternary | bipolar => decide

theorem width_pos (hf : f.validate = .ok ()) : 0 < f.width := (width_of_validate hf).1

theorem width_le (hf : f.validate = .ok ()) : f.width ≤ 64 := (width_of_validate hf).2

theorem validate_fixed_iff {bits intBits : ℕ} :
    (fixed bits intBits).validate = .ok () ↔
      0 < bits ∧ bits ≤ 64 ∧ 0 < intBits ∧ intBits ≤ bits := by
  by_cases hw : 0 < bits ∧ bits ≤ 64
  · have hcheck : checkWidth bits = .ok () := checkWidth_eq_ok_iff.mpr hw
    by_cases hint : intBits = 0 ∨ bits < intBits
    · simp [validate, hcheck, bind, Except.bind, hint]
      omega
    · simp [validate, hcheck, bind, Except.bind, hint]
      omega
  · constructor
    · intro h
      exact absurd (width_of_validate h) hw
    · rintro ⟨hpos, hle, -⟩
      exact absurd ⟨hpos, hle⟩ hw

theorem getLsbD_mask (f : FieldFormat) (j : ℕ) :
    f.mask.getLsbD j = (decide (j < f.width) && decide (j < 64)) := by
  unfold mask
  split
  case isTrue h =>
    rw [BitVec.getLsbD_allOnes]
    by_cases hj : j < 64
    · have hw : j < f.width := by omega
      simp [hj, hw]
    · simp [hj]
  case isFalse h =>
    rw [BitVec.getLsbD_ofNat, pow2_eq, Nat.testBit_two_pow_sub_one, Bool.and_comm]

theorem getLsbD_encode (f : FieldFormat) (s : Scalar) (j : ℕ) :
    (f.encode s).getLsbD j = (decide (j < f.width) && (f.code s).getLsbD j) := by
  rw [encode, BitVec.getLsbD_and, getLsbD_mask, Bool.and_comm]
  by_cases hj : j < 64
  · simp [hj]
  · simp [hj, BitVec.getLsbD_of_ge (f.code s) j (by omega)]

theorem encode_eq_setWidth (f : FieldFormat) (s : Scalar) :
    f.encode s = ((f.code s).setWidth f.width).setWidth 64 := by
  apply BitVec.eq_of_getLsbD_eq
  intro j hj
  rw [getLsbD_encode, BitVec.getLsbD_setWidth, BitVec.getLsbD_setWidth, decide_eq_true hj,
    Bool.true_and]

theorem encode_lt (f : FieldFormat) (s : Scalar) : (f.encode s).toNat < 2 ^ f.width := by
  apply Nat.lt_pow_two_of_testBit
  intro j hj
  have h := getLsbD_encode f s j
  rwa [decide_eq_false (by omega), Bool.false_and] at h

end PackedStream.FieldFormat
