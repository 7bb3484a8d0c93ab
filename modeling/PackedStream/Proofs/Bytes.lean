import Mathlib
import PackedStream.Bytes

namespace PackedStream

theorem pow2_eq (n : ℕ) : pow2 n = 2 ^ n := rfl

theorem sum_testBit (n width : ℕ) :
    ∑ j ∈ Finset.range width, (n.testBit j).toNat * 2 ^ j = n % 2 ^ width := by
  induction width with
  | zero => simp [Nat.mod_one]
  | succ width ih =>
    have hbit : (n.testBit width).toNat = n / 2 ^ width % 2 := by
      rw [Nat.testBit_eq_decide_div_mod_eq]
      obtain h | h := Nat.mod_two_eq_zero_or_one (n / 2 ^ width) <;> simp [h]
    rw [Finset.sum_range_succ, ih, hbit, Nat.pow_succ, Nat.mod_mul, Nat.mul_comm (2 ^ width)]

namespace Bytes

theorem byteAt_of_size_le {bytes : Array UInt8} {i : ℕ} (h : bytes.size ≤ i) :
    byteAt bytes i = 0 := by
  rw [byteAt, Array.getElem?_eq_none h, Option.getD_none]

theorem byteAt_of_lt {bytes : Array UInt8} {i : ℕ} (h : i < bytes.size) :
    byteAt bytes i = bytes[i] := by
  rw [byteAt, Array.getElem?_eq_getElem h, Option.getD_some]

theorem toList_extract {bytes : Array UInt8} {count : ℕ} (h : count ≤ bytes.size) :
    (bytes.extract 0 count).toList = (List.range count).map (byteAt bytes) := by
  apply List.ext_getElem
  · simp [h]
  · intro i hi _
    have hlt : i < count := by simpa [h] using hi
    rw [List.getElem_map, List.getElem_range, byteAt_of_lt (by omega)]
    simp

theorem byteAt_modify (bytes : Array UInt8) (i j : ℕ) (g : UInt8 → UInt8) :
    byteAt (bytes.modify i g) j =
      if i = j ∧ j < bytes.size then g (byteAt bytes j) else byteAt bytes j := by
  simp only [byteAt, Array.getElem?_modify]
  by_cases hj : j < bytes.size
  · by_cases hi : i = j <;> simp [hi, hj]
  · simp [hj]

theorem bit_of_le {bytes : Array UInt8} {k : ℕ} (h : 8 * bytes.size ≤ k) :
    bit bytes k = false := by
  rw [bit, byteAt_of_size_le (by omega)]
  simp

@[simp]
theorem bit_replicate_zero (n k : ℕ) : bit (Array.replicate n 0) k = false := by
  by_cases h : k / 8 < n <;> simp [bit, byteAt, h]

theorem eq_of_bit_eq {a b : Array UInt8} (hsize : a.size = b.size)
    (hbit : ∀ k, bit a k = bit b k) : a = b := by
  apply Array.ext hsize
  intro i ha hb
  apply UInt8.toNat_inj.mp
  apply Nat.eq_of_testBit_eq
  intro j
  by_cases hj : j < 8
  · have h := hbit (8 * i + j)
    have hdiv : (8 * i + j) / 8 = i := by omega
    have hmod : (8 * i + j) % 8 = j := by omega
    simpa only [bit, hdiv, hmod, byteAt_of_lt ha, byteAt_of_lt hb] using h
  · have high (x : UInt8) : x.toNat.testBit j = false := by
      apply Nat.testBit_lt_two_pow
      exact lt_of_lt_of_le x.toNat_lt (Nat.pow_le_pow_right (by decide) (by omega))
    rw [high, high]

theorem bit_append (a b : Array UInt8) (k : ℕ) :
    bit (a ++ b) k = if k < 8 * a.size then bit a k else bit b (k - 8 * a.size) := by
  have hdiv : (k - 8 * a.size) / 8 = k / 8 - a.size := by omega
  have hmod : 8 * a.size ≤ k → (k - 8 * a.size) % 8 = k % 8 := by omega
  simp only [bit, byteAt, Array.getElem?_append]
  by_cases h : k < 8 * a.size
  · rw [if_pos h, if_pos (by omega)]
  · rw [if_neg h, if_neg (by omega), hdiv, hmod (by omega)]

theorem bit_extract {bytes : Array UInt8} {first last : ℕ} (h : last ≤ bytes.size) (k : ℕ) :
    bit (bytes.extract first last) k =
      (decide (k < 8 * (last - first)) && bit bytes (8 * first + k)) := by
  have hdiv : (8 * first + k) / 8 = first + k / 8 := by omega
  have hmod : (8 * first + k) % 8 = k % 8 := by omega
  have hlt : k / 8 < last - first ↔ k < 8 * (last - first) := by omega
  simp only [bit, byteAt, Array.getElem?_extract, min_eq_left h, hdiv, hmod, hlt]
  by_cases hk : k < 8 * (last - first) <;> simp [hk]

def littleEndian {w : ℕ} (count : ℕ) (v : BitVec w) : List UInt8 :=
  (List.range count).map fun i => UInt8.ofBitVec (v.extractLsb' (8 * i) 8)

theorem bit_littleEndian {w : ℕ} (count : ℕ) (v : BitVec w) (k : ℕ) :
    bit (littleEndian count v).toArray k = (decide (k < 8 * count) && v.getLsbD k) := by
  by_cases hk : k / 8 < count
  · have hpos : 8 * (k / 8) + k % 8 = k := Nat.div_add_mod k 8
    have hbit : k % 8 < 8 := Nat.mod_lt k (by decide)
    have hget := BitVec.getLsbD_extractLsb' (8 * (k / 8)) 8 v (k % 8)
    rw [hpos, decide_eq_true hbit, Bool.true_and] at hget
    rw [bit, byteAt, littleEndian, List.getElem?_toArray, List.getElem?_map, List.getElem?_range hk,
      Option.map_some, Option.getD_some, decide_eq_true (by omega), Bool.true_and, ← hget]
    rfl
  · rw [bit_of_le (by simp [littleEndian]; omega), decide_eq_false (by omega), Bool.false_and]

theorem bit_modify_or (bytes : Array UInt8) (i value k : ℕ) :
    bit (bytes.modify i (· ||| UInt8.ofNat value)) k =
      (bit bytes k || (decide (i = k / 8 ∧ k < 8 * bytes.size) && value.testBit (k % 8))) := by
  have hlow : (value % 2 ^ 8).testBit (k % 8) = value.testBit (k % 8) := by
    rw [Nat.testBit_mod_two_pow, decide_eq_true (Nat.mod_lt k (by decide)), Bool.true_and]
  have hk : k / 8 < bytes.size ↔ k < 8 * bytes.size := by omega
  simp only [bit, byteAt_modify, hk]
  by_cases h : i = k / 8 ∧ k < 8 * bytes.size
  · rw [if_pos h, decide_eq_true h, Bool.true_and, UInt8.toNat_or, Nat.testBit_or,
      UInt8.toNat_ofNat', hlow]
  · rw [if_neg h, decide_eq_false h, Bool.false_and, Bool.or_false]

@[simp]
theorem size_orNumber (bytes : Array UInt8) (first value count : ℕ) :
    (orNumber bytes first value count).size = bytes.size := by
  induction count generalizing bytes first value with
  | zero => rfl
  | succ count ih => rw [orNumber, ih, Array.size_modify]

theorem bit_orNumber (bytes : Array UInt8) (first value count k : ℕ) :
    bit (orNumber bytes first value count) k =
      (bit bytes k || (decide (8 * first ≤ k ∧ k < 8 * (first + count) ∧ k < 8 * bytes.size) &&
        value.testBit (k - 8 * first))) := by
  induction count generalizing bytes first value with
  | zero =>
    have hempty : ¬ (8 * first ≤ k ∧ k < 8 * (first + 0) ∧ k < 8 * bytes.size) := by omega
    rw [orNumber, decide_eq_false hempty, Bool.false_and, Bool.or_false]
  | succ count ih =>
    rw [orNumber, ih, bit_modify_or, Array.size_modify, Bool.or_assoc]
    congr 1
    have hshift : (value / 256).testBit (k - 8 * (first + 1)) =
        value.testBit (k - 8 * (first + 1) + 8) := Nat.testBit_div_two_pow (n := 8) value _
    rw [hshift]
    by_cases hfirst : first = k / 8 ∧ k < 8 * bytes.size
    · have hrest : ¬ (8 * (first + 1) ≤ k ∧ k < 8 * (first + 1 + count) ∧ k < 8 * bytes.size) := by
        omega
      have hall : 8 * first ≤ k ∧ k < 8 * (first + (count + 1)) ∧ k < 8 * bytes.size := by omega
      have hmod : k % 8 = k - 8 * first := by omega
      simp only [decide_eq_true hfirst, decide_eq_false hrest, decide_eq_true hall, hmod,
        Bool.true_and, Bool.false_and, Bool.or_false]
    · by_cases hrest : 8 * (first + 1) ≤ k ∧ k < 8 * (first + 1 + count) ∧ k < 8 * bytes.size
      · have hall : 8 * first ≤ k ∧ k < 8 * (first + (count + 1)) ∧ k < 8 * bytes.size := by omega
        have hsub : k - 8 * (first + 1) + 8 = k - 8 * first := by omega
        simp only [decide_eq_false hfirst, decide_eq_true hrest, decide_eq_true hall, hsub,
          Bool.true_and, Bool.false_and, Bool.false_or]
      · have hall : ¬ (8 * first ≤ k ∧ k < 8 * (first + (count + 1)) ∧ k < 8 * bytes.size) := by
          omega
        simp only [decide_eq_false hfirst, decide_eq_false hrest, decide_eq_false hall,
          Bool.false_and, Bool.or_self]

theorem testBit_number (bytes : Array UInt8) (first count j : ℕ) :
    (number bytes first count).testBit j =
      (decide (j < 8 * count) && bit bytes (8 * first + j)) := by
  induction count generalizing first j with
  | zero => simp [number]
  | succ count ih =>
    have hlow : (byteAt bytes first).toNat < 2 ^ 8 := (byteAt bytes first).toNat_lt
    rw [number, Nat.add_comm, show 256 = 2 ^ 8 from rfl, Nat.testBit_two_pow_mul_add _ hlow]
    by_cases hj : j < 8
    · have hdiv : (8 * first + j) / 8 = first := by omega
      have hmod : (8 * first + j) % 8 = j := by omega
      have hcount : j < 8 * (count + 1) := by omega
      simp [hj, bit, hdiv, hmod, hcount]
    · have hcount : j - 8 < 8 * count ↔ j < 8 * (count + 1) := by omega
      have hpos : 8 * (first + 1) + (j - 8) = 8 * first + j := by omega
      rw [if_neg hj, ih, hpos]
      simp [hcount]

theorem getLsbD_field (bytes : Array UInt8) (offset : ℕ) {width : ℕ} (hwidth : width ≤ 64) (j : ℕ) :
    (field bytes offset width).getLsbD j = (decide (j < width) && bit bytes (offset + j)) := by
  rw [field, BitVec.getLsbD_ofNat, pow2_eq, Nat.testBit_mod_two_pow, Nat.testBit_shiftRight,
    testBit_number]
  by_cases hj : j < width
  · have hword : j < 64 := by omega
    have hwindow : offset % 8 + j < 8 * 9 := by omega
    have hpos : 8 * (offset / 8) + (offset % 8 + j) = offset + j := by omega
    simp [hj, hword, hwindow, hpos]
  · simp [hj]

theorem field_lt (bytes : Array UInt8) (offset width : ℕ) :
    (field bytes offset width).toNat < 2 ^ width := by
  rw [field, BitVec.toNat_ofNat, pow2_eq]
  exact lt_of_le_of_lt (Nat.mod_le _ _) (Nat.mod_lt _ (Nat.two_pow_pos width))

theorem toNat_field (bytes : Array UInt8) (offset : ℕ) {width : ℕ} (hwidth : width ≤ 64) :
    (field bytes offset width).toNat =
      ∑ j ∈ Finset.range width, (bit bytes (offset + j)).toNat * 2 ^ j := by
  rw [← Nat.mod_eq_of_lt (field_lt bytes offset width), ← sum_testBit]
  apply Finset.sum_congr rfl
  intro j hj
  have hbit := getLsbD_field bytes offset hwidth j
  rw [BitVec.getLsbD, decide_eq_true (Finset.mem_range.mp hj), Bool.true_and] at hbit
  rw [hbit]

theorem field_congr {a b : Array UInt8} {offset width : ℕ} (hwidth : width ≤ 64)
    (h : ∀ j < width, bit a (offset + j) = bit b (offset + j)) :
    field a offset width = field b offset width := by
  apply BitVec.eq_of_getLsbD_eq
  intro j _
  rw [getLsbD_field a offset hwidth, getLsbD_field b offset hwidth]
  by_cases hj : j < width
  · rw [h j hj]
  · rw [decide_eq_false hj, Bool.false_and, Bool.false_and]

end Bytes

end PackedStream
