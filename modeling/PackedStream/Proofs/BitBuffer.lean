import PackedStream.BitBuffer
import PackedStream.Proofs.Bytes

namespace PackedStream

def streamBit (width : ℕ) (fields : List Word) (k : ℕ) : Bool :=
  (fields[k / width]?.getD 0).getLsbD (k % width)

section Streams

variable {width : ℕ} {fields : List Word} {k : ℕ}

@[simp]
theorem streamBit_nil (width k : ℕ) : streamBit width [] k = false := by
  simp [streamBit]

theorem streamBit_of_lt (hk : k / width < fields.length) :
    streamBit width fields k = fields[k / width].getLsbD (k % width) := by
  rw [streamBit, List.getElem?_eq_getElem hk, Option.getD_some]

theorem streamBit_of_le (hwidth : 0 < width) (hk : fields.length * width ≤ k) :
    streamBit width fields k = false := by
  have hdiv : fields.length ≤ k / width := (Nat.le_div_iff_mul_le hwidth).mpr hk
  rw [streamBit, List.getElem?_eq_none hdiv, Option.getD_none]
  exact BitVec.getLsbD_zero

theorem streamBit_append (hwidth : 0 < width) (xs ys : List Word) (k : ℕ) :
    streamBit width (xs ++ ys) k =
      if k < xs.length * width then streamBit width xs k
      else streamBit width ys (k - xs.length * width) := by
  have hlt : k < xs.length * width ↔ k / width < xs.length := (Nat.div_lt_iff_lt_mul hwidth).symm
  simp only [streamBit, List.getElem?_append, hlt]
  by_cases h : k / width < xs.length
  · rw [if_pos h, if_pos h]
  · have hle : width * xs.length ≤ k := by
      rw [Nat.mul_comm]
      exact Nat.le_of_not_lt (fun hk => h (hlt.mp hk))
    rw [if_neg h, if_neg h, Nat.mul_comm, Nat.sub_mul_div, Nat.sub_mul_mod hle]

theorem streamBit_cons (hwidth : 0 < width) (v : Word) (k : ℕ) :
    streamBit width (v :: fields) k =
      if k < width then v.getLsbD k else streamBit width fields (k - width) := by
  rw [← List.singleton_append, streamBit_append hwidth, List.length_singleton, Nat.one_mul]
  by_cases h : k < width
  · rw [if_pos h, if_pos h, streamBit, Nat.div_eq_of_lt h, Nat.mod_eq_of_lt h]
    rfl
  · rw [if_neg h, if_neg h]

theorem streamBit_slice (hwidth : 0 < width) (fields : List Word) (first last k : ℕ) :
    (decide (first * width ≤ k) &&
        streamBit width ((fields.drop first).take (last - first)) (k - first * width)) =
      (decide (first ≤ k / width ∧ k / width < last) && streamBit width fields k) := by
  have hfirst : first * width ≤ k ↔ first ≤ k / width := (Nat.le_div_iff_mul_le hwidth).symm
  by_cases hle : first ≤ k / width
  · have hbits : width * first ≤ k := by
      rw [Nat.mul_comm]
      exact hfirst.mpr hle
    rw [decide_eq_true (hfirst.mpr hle), Bool.true_and, streamBit, Nat.mul_comm,
      Nat.sub_mul_div, Nat.sub_mul_mod hbits]
    by_cases hlast : k / width < last
    · have hplace : first + (k / width - first) = k / width := by omega
      rw [List.getElem?_take_of_lt (by omega), List.getElem?_drop, hplace]
      simp [hle, hlast, streamBit]
    · rw [List.getElem?_take_eq_none (by omega)]
      simp [hlast]
  · rw [decide_eq_false (mt hfirst.mp hle)]
    simp [hle]

end Streams

theorem getLsbD_of_toNat_lt {v : Word} {width j : ℕ} (hv : v.toNat < 2 ^ width) (hj : width ≤ j) :
    v.getLsbD j = false :=
  Nat.testBit_lt_two_pow (lt_of_lt_of_le hv (Nat.pow_le_pow_right (by decide) hj))

namespace Bytes

theorem bit_zipWith_or {a b : Array UInt8} (h : a.size = b.size) (k : ℕ) :
    bit (Array.zipWith (· ||| ·) a b) k = (bit a k || bit b k) := by
  by_cases hk : k / 8 < a.size
  · have hb : k / 8 < b.size := by omega
    have hz : k / 8 < (Array.zipWith (· ||| ·) a b).size := by simp [hk, hb]
    simp only [bit, byteAt_of_lt hk, byteAt_of_lt hb, byteAt_of_lt hz, Array.getElem_zipWith,
      UInt8.toNat_or, Nat.testBit_or]
  · have hz : 8 * (Array.zipWith (· ||| ·) a b).size ≤ k := by
      rw [Array.size_zipWith]
      omega
    rw [bit_of_le hz, bit_of_le (by omega), bit_of_le (by omega), Bool.or_self]

end Bytes

namespace BitBuffer

@[simp]
theorem bitLength_zeros (n : ℕ) : (zeros n).bitLength = n := rfl

@[simp]
theorem size_zeros (n : ℕ) : (zeros n).bytes.size = (n + 7) / 8 := by
  simp [zeros]

@[simp]
theorem bit_zeros (n k : ℕ) : Bytes.bit (zeros n).bytes k = false :=
  Bytes.bit_replicate_zero _ k

variable (b : BitBuffer)

@[simp]
theorem bitLength_set (n : ℕ) : (b.set n).bitLength = b.bitLength := by
  unfold set
  split <;> rfl

@[simp]
theorem size_set (n : ℕ) : (b.set n).bytes.size = b.bytes.size := by
  unfold set
  split
  · rw [Array.size_modify]
  · rfl

theorem bit_set (hb : b.bitLength ≤ 8 * b.bytes.size) (n k : ℕ) :
    Bytes.bit (b.set n).bytes k = (Bytes.bit b.bytes k || decide (n = k ∧ n < b.bitLength)) := by
  unfold set
  split
  case isTrue h =>
    rw [Bytes.bit_modify_or, pow2_eq, Nat.testBit_two_pow, ← Bool.decide_and]
    congr 1
    exact decide_eq_decide.mpr (by omega)
  case isFalse h =>
    rw [decide_eq_false (fun hn => h hn.2), Bool.or_false]

@[simp]
theorem bitLength_write (value : Word) (offset : ℕ) :
    (b.write value offset).bitLength = b.bitLength := by
  unfold write
  split <;> rfl

@[simp]
theorem size_write (value : Word) (offset : ℕ) :
    (b.write value offset).bytes.size = b.bytes.size := by
  unfold write
  split
  · rw [Bytes.size_orNumber]
  · rfl

theorem bit_write (hb : b.bitLength ≤ 8 * b.bytes.size) (value : Word) (offset k : ℕ) :
    Bytes.bit (b.write value offset).bytes k =
      (Bytes.bit b.bytes k ||
        (decide (offset ≤ k ∧ k < b.bitLength) && value.getLsbD (k - offset))) := by
  unfold write
  split
  case isTrue h =>
    rw [Bytes.bit_orNumber, Nat.testBit_shiftLeft, pow2_eq, Nat.testBit_mod_two_pow]
    congr 1
    by_cases hk : offset ≤ k ∧ k < b.bitLength
    · have hsub : k - 8 * (offset / 8) - offset % 8 = k - offset := by omega
      have hshift : k - 8 * (offset / 8) ≥ offset % 8 := by omega
      rw [hsub, decide_eq_true hk, decide_eq_true hshift]
      by_cases hword : k - offset < 64
      · have hkept : k - offset < min 64 (b.bitLength - offset) := by omega
        have hwindow : 8 * (offset / 8) ≤ k ∧ k < 8 * (offset / 8 + 9) ∧ k < 8 * b.bytes.size := by
          omega
        rw [decide_eq_true hkept, decide_eq_true hwindow]
        rfl
      · have hkept : ¬ k - offset < min 64 (b.bitLength - offset) := by omega
        rw [decide_eq_false hkept, BitVec.getLsbD_of_ge value _ (by omega)]
        simp
    · rw [decide_eq_false hk, Bool.false_and]
      by_cases hle : offset ≤ k
      · have hkept : ¬ k - 8 * (offset / 8) - offset % 8 < min 64 (b.bitLength - offset) := by
          omega
        simp [hkept]
      · have hshift : 8 * (offset / 8) ≤ k → ¬ k - 8 * (offset / 8) ≥ offset % 8 := by omega
        by_cases hfirst : 8 * (offset / 8) ≤ k
        · simp [hshift hfirst]
        · simp [hfirst]
  case isFalse h =>
    have hk : ¬ (offset ≤ k ∧ k < b.bitLength) := by omega
    rw [decide_eq_false hk, Bool.false_and, Bool.or_false]

@[simp]
theorem bitLength_writeAll (width offset : ℕ) (fields : List Word) :
    (writeAll width b offset fields).bitLength = b.bitLength := by
  induction fields generalizing b offset with
  | nil => rfl
  | cons v fields ih => rw [writeAll, ih, bitLength_write]

@[simp]
theorem size_writeAll (width offset : ℕ) (fields : List Word) :
    (writeAll width b offset fields).bytes.size = b.bytes.size := by
  induction fields generalizing b offset with
  | nil => rfl
  | cons v fields ih => rw [writeAll, ih, size_write]

theorem bit_writeAll {width : ℕ} (hwidth : 0 < width) (hb : b.bitLength ≤ 8 * b.bytes.size)
    (offset : ℕ) (fields : List Word) (hfields : ∀ v ∈ fields, v.toNat < 2 ^ width)
    (hfit : offset + fields.length * width ≤ b.bitLength) (k : ℕ) :
    Bytes.bit (writeAll width b offset fields).bytes k =
      (Bytes.bit b.bytes k || (decide (offset ≤ k) && streamBit width fields (k - offset))) := by
  induction fields generalizing b offset with
  | nil => simp [writeAll]
  | cons v fields ih =>
    have hv : v.toNat < 2 ^ width := hfields v List.mem_cons_self
    rw [List.length_cons, Nat.succ_mul] at hfit
    have hrest := ih (b.write v offset) (by simpa using hb) (offset + width)
      (fun u hu => hfields u (List.mem_cons_of_mem v hu)) (by rw [bitLength_write]; omega)
    rw [writeAll, hrest, bit_write b hb, streamBit_cons hwidth, Bool.or_assoc]
    congr 1
    by_cases hle : offset ≤ k
    · by_cases hfirst : k - offset < width
      · have hlater : ¬ offset + width ≤ k := by omega
        have hlength : k < b.bitLength := by omega
        simp [hle, hfirst, hlater, hlength]
      · have hlater : offset + width ≤ k := by omega
        have hsub : k - (offset + width) = k - offset - width := by omega
        rw [getLsbD_of_toNat_lt hv (by omega), if_neg hfirst, hsub]
        simp [hle, hlater]
    · have hlater : ¬ offset + width ≤ k := by omega
      simp [hle, hlater]

theorem eq_of_bit_eq {b other : BitBuffer} (hlength : b.bitLength = other.bitLength)
    (hsize : b.bytes.size = other.bytes.size)
    (hbit : ∀ k, Bytes.bit b.bytes k = Bytes.bit other.bytes k) : b = other :=
  congrArg₂ mk (Bytes.eq_of_bit_eq hsize hbit) hlength

theorem merge_of_size_eq (other : BitBuffer) (h : b.bytes.size = other.bytes.size) :
    ∃ c, b.merge other = .ok c ∧ c.bitLength = b.bitLength ∧ c.bytes.size = b.bytes.size ∧
      ∀ k, Bytes.bit c.bytes k = (Bytes.bit b.bytes k || Bytes.bit other.bytes k) := by
  refine ⟨_, if_pos h, rfl, ?_, Bytes.bit_zipWith_or h⟩
  rw [Array.size_zipWith, h, Nat.min_self]

theorem merge_eq_ok_iff {other c : BitBuffer} : b.merge other = .ok c ↔
    b.bytes.size = other.bytes.size ∧
      c = { b with bytes := Array.zipWith (· ||| ·) b.bytes other.bytes } := by
  unfold merge
  split
  case isTrue h => simp [h, eq_comm]
  case isFalse h => simp [h]

end BitBuffer

end PackedStream
