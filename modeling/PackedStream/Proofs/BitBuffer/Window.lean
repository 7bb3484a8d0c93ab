import PackedStream.BitBuffer.Window
import PackedStream.Proofs.BitBuffer.Calls
import PackedStream.Proofs.PackOptions

/-!
A write sets the bits of its field and no others. The way byte by byte through a window of 128 bits
arrives at the same bytes without a fault.
-/

namespace PackedStream

namespace Bytes

theorem bit_cons (byte : UInt8) (window : List UInt8) (k : ℕ) : bit (byte :: window).toArray k =
    if k < 8 then byte.toNat.testBit k else bit window.toArray (k - 8) := by
  have h := bit_append #[byte] window.toArray k
  rw [List.append_toArray, List.singleton_append] at h
  rw [h]
  by_cases hk : k < 8
  · have hdiv : k / 8 = 0 := by omega
    have hmod : k % 8 = k := by omega
    simp [hk, bit, byteAt, hdiv, hmod]
  · simp [hk]

theorem bit_ofWindow (window : BitVec 128) (k : ℕ) :
    bit (ofWindow window).toArray k = window.getLsbD k := by
  change bit (littleEndian 16 window).toArray k = _
  rw [bit_littleEndian]
  by_cases hk : k < 8 * 16
  · rw [decide_eq_true hk, Bool.true_and]
  · rw [decide_eq_false hk, Bool.false_and, BitVec.getLsbD_of_ge window k (by omega)]

section OrWindow

variable {bytes : Array UInt8} {last i : ℕ} {mask byte : UInt8} {window : List UInt8}

theorem orWindow_cons (hlast : last < bytes.size) (hi : i ≤ last) (hlimit : i < sizeLimit) :
    orWindow last mask bytes i (byte :: window) =
      orWindow last mask (bytes.modify i (· ||| if i = last then byte &&& mask else byte)) (i + 1)
        window := by
  rw [orWindow, asSize_of_lt hlimit]
  simp only [bind, Except.bind, if_neg (not_lt.mpr hi)]
  by_cases hbyte : byte = 0
  · have hsame : bytes.modify i (fun x => x) = bytes := by
      apply Array.ext_getElem?
      intro j
      rw [Array.getElem?_modify]
      split <;> simp
    simp [hbyte, hsame]
  · rw [if_neg hbyte, orAt, if_pos (by omega)]

theorem orWindow_of_lt (hi : last < i) (hlimit : i < sizeLimit) :
    orWindow last mask bytes i window = .ok bytes := by
  cases window with
  | nil => rfl
  | cons byte window =>
    rw [orWindow, asSize_of_lt hlimit]
    simp only [bind, Except.bind, if_pos hi]
    rfl

theorem bit_window_cons (byte : UInt8) (window : List UInt8) (i size k : ℕ) :
    (decide (i = k / 8 ∧ k < 8 * size) && byte.toNat.testBit (k % 8) ||
        decide (8 * (i + 1) ≤ k ∧ k < 8 * size) && bit window.toArray (k - 8 * (i + 1))) =
      (decide (8 * i ≤ k ∧ k < 8 * size) && bit (byte :: window).toArray (k - 8 * i)) := by
  rw [bit_cons]
  by_cases hfirst : i = k / 8
  · have hlow : k - 8 * i = k % 8 := by omega
    have hmod : k % 8 < 8 := Nat.mod_lt k (by decide)
    have hrest : ¬ (8 * (i + 1) ≤ k ∧ k < 8 * size) := by omega
    have hle : 8 * i ≤ k := by omega
    rw [decide_eq_false hrest, Bool.false_and, Bool.or_false, hlow, if_pos hmod]
    simp only [hfirst, hfirst ▸ hle, true_and]
  · have hnot : ¬ (i = k / 8 ∧ k < 8 * size) := fun h => hfirst h.1
    rw [decide_eq_false hnot, Bool.false_and, Bool.false_or]
    by_cases hlater : 8 * (i + 1) ≤ k
    · have hsub : k - 8 * i - 8 = k - 8 * (i + 1) := by omega
      have hle : 8 * i ≤ k := by omega
      rw [if_neg (by omega), hsub]
      simp only [hlater, hle, true_and]
    · have hbefore : ¬ 8 * i ≤ k := by omega
      simp only [hlater, hbefore, false_and, decide_false, Bool.false_and]

theorem orWindow_ok (mask : UInt8) (hlast : last + 1 = bytes.size)
    (hlimit : i + window.length < sizeLimit) :
    ∃ result : Array UInt8, orWindow last mask bytes i window = .ok result ∧
      result.size = bytes.size ∧
      ∀ k, bit result k = (bit bytes k || (decide (8 * i ≤ k ∧ k < 8 * bytes.size) &&
        (bit window.toArray (k - 8 * i) &&
          (decide (k / 8 ≠ last) || mask.toNat.testBit (k % 8))))) := by
  induction window generalizing bytes i with
  | nil =>
    refine ⟨bytes, rfl, rfl, fun k => ?_⟩
    have hnone : bit (List.toArray []) (k - 8 * i) = false := bit_of_le (Nat.zero_le _)
    rw [hnone, Bool.false_and, Bool.and_false, Bool.or_false]
  | cons byte window ih =>
    rw [List.length_cons] at hlimit
    obtain hi | hi := le_or_gt i last
    · rw [orWindow_cons (by omega) hi (by omega)]
      generalize hbyte : (if i = last then byte &&& mask else byte) = masked
      obtain ⟨result, hresult, hsize, hbit⟩ :=
        ih (hlast.trans (Array.size_modify (f := (· ||| masked)) (i := i)).symm)
          (by omega : i + 1 + window.length < sizeLimit)
      refine ⟨result, hresult, by simpa using hsize, fun k => ?_⟩
      have hmodify := bit_modify_or bytes i masked.toNat k
      rw [UInt8.ofNat_toNat] at hmodify
      have hmasked : (decide (i = k / 8 ∧ k < 8 * bytes.size) && masked.toNat.testBit (k % 8)) =
          (decide (i = k / 8 ∧ k < 8 * bytes.size) && byte.toNat.testBit (k % 8) &&
            (decide (k / 8 ≠ last) || mask.toNat.testBit (k % 8))) := by
        by_cases hplace : i = k / 8
        · rw [← hbyte, ← hplace, Bool.and_assoc]
          split
          case isTrue h => simp [h]
          case isFalse h => simp [h]
        · simp [hplace]
      rw [hbit, hmodify, Array.size_modify, Bool.or_assoc, hmasked, ← Bool.and_assoc (decide _) _ _,
        ← Bool.and_or_distrib_right, bit_window_cons, Bool.and_assoc]
    · refine ⟨bytes, orWindow_of_lt hi (by omega), rfl, fun k => ?_⟩
      have hnone : ¬ (8 * i ≤ k ∧ k < 8 * bytes.size) := by omega
      rw [decide_eq_false hnone, Bool.false_and, Bool.or_false]

end OrWindow

end Bytes

namespace BitBuffer

variable {b : BitBuffer}

theorem getLsbD_window (value : Word) (offset j : ℕ) :
    (window value offset).getLsbD j =
      (decide (offset % 8 ≤ j) && value.getLsbD (j - offset % 8)) := by
  rw [window, BitVec.getLsbD_shiftLeft, BitVec.getLsbD_setWidth]
  by_cases hj : j < 128
  · have hsub : j - offset % 8 < 128 := by omega
    by_cases hle : offset % 8 ≤ j
    · simp [hj, hsub, hle]
    · simp [hle, Nat.lt_of_not_le hle]
  · rw [BitVec.getLsbD_of_ge value _ (by omega)]
    simp [hj]

theorem toNat_window (value : Word) (offset : ℕ) :
    (window value offset).toNat = value.toNat * 2 ^ (offset % 8) := by
  have hpow : 2 ^ (offset % 8) ≤ 2 ^ 7 := Nat.pow_le_pow_right (by decide) (by omega)
  have hlt : value.toNat * 2 ^ (offset % 8) < 2 ^ 128 :=
    calc value.toNat * 2 ^ (offset % 8) < 2 ^ 64 * 2 ^ (offset % 8) :=
          Nat.mul_lt_mul_of_pos_right value.isLt (Nat.two_pow_pos _)
      _ ≤ 2 ^ 64 * 2 ^ 7 := Nat.mul_le_mul_left _ hpow
      _ < 2 ^ 128 := by norm_num
  rw [window, BitVec.toNat_shiftLeft, BitVec.toNat_setWidth_of_le (by decide), Nat.shiftLeft_eq,
    Nat.mod_eq_of_lt hlt]

theorem Sized.testBit_lastMask (hb : b.Sized) {k : ℕ} (hk : k / 8 + 1 = b.bytes.size) :
    b.lastMask.toNat.testBit (k % 8) = decide (k < b.bitLength) := by
  unfold Sized at hb
  have hbit : k % 8 < 8 := Nat.mod_lt k (by decide)
  unfold lastMask
  split
  case isTrue h =>
    have hlt : k < b.bitLength := by omega
    have hones : (255 : UInt8).toNat = 2 ^ 8 - 1 := rfl
    rw [hones, Nat.testBit_two_pow_sub_one, decide_eq_true hbit, decide_eq_true hlt]
  case isFalse h =>
    rw [UInt8.toNat_ofNat', Nat.testBit_mod_two_pow, pow2_eq, Nat.testBit_two_pow_sub_one,
      decide_eq_true hbit, Bool.true_and]
    exact decide_eq_decide.mpr (by omega)

theorem Sized.lastMask_keeps (hb : b.Sized) {k : ℕ} (hk : k < 8 * b.bytes.size) :
    (decide (k / 8 ≠ b.bytes.size - 1) || b.lastMask.toNat.testBit (k % 8)) =
      decide (k < b.bitLength) := by
  by_cases hlast : k / 8 + 1 = b.bytes.size
  · have hsame : ¬ k / 8 ≠ b.bytes.size - 1 := by omega
    rw [decide_eq_false hsame, Bool.false_or, hb.testBit_lastMask hlast]
  · have hother : k / 8 ≠ b.bytes.size - 1 := by omega
    have hlt : k < b.bitLength := by
      unfold Sized at hb
      omega
    rw [decide_eq_true hother, decide_eq_true hlt, Bool.true_or]

theorem write_zero (hb : b.Sized) (offset : ℕ) : b.write 0 offset = b := by
  apply eq_of_bit_eq (b.bitLength_write 0 offset) (b.size_write 0 offset)
  intro k
  have hzero : (0 : Word).getLsbD (k - offset) = false := BitVec.getLsbD_zero
  rw [bit_write b hb.bitLength_le, hzero, Bool.and_false, Bool.or_false]

theorem write_of_le {value : Word} {offset : ℕ} (h : b.bitLength ≤ offset) :
    b.write value offset = b := if_neg (not_lt.mpr h)

theorem writeWindow_eq (hb : b.Sized) (hlimit : b.bitLength < sizeLimit) (value : Word)
    (offset : ℕ) : b.writeWindow value offset = .ok (b.write value offset) := by
  unfold writeWindow
  split
  case isTrue h =>
    obtain rfl | hbehind := h
    · rw [write_zero hb]
    · rw [write_of_le hbehind]
  case isFalse h =>
    rw [not_or, not_le] at h
    have hsize := hb
    unfold Sized at hsize
    have hnonempty : b.bytes.size ≠ 0 := by omega
    have hlast : b.bytes.size - 1 + 1 = b.bytes.size := by omega
    have hwords : offset / 8 + (Bytes.ofWindow (window value offset)).length < sizeLimit := by
      rw [sizeLimit_eq] at hlimit ⊢
      change offset / 8 + 16 < _
      omega
    obtain ⟨result, hresult, hresultSize, hbit⟩ := Bytes.orWindow_ok b.lastMask hlast hwords
    rw [if_neg hnonempty, hresult]
    refine congrArg Except.ok (eq_of_bit_eq ?_ ?_ fun k => ?_)
    · rw [bitLength_write]
    · rw [size_write]
      exact hresultSize
    · rw [bit_write b hb.bitLength_le, hbit, Bytes.bit_ofWindow, getLsbD_window]
      congr 1
      by_cases hk : 8 * (offset / 8) ≤ k ∧ k < 8 * b.bytes.size
      · have hsub : k - 8 * (offset / 8) - offset % 8 = k - offset := by omega
        have hle : offset % 8 ≤ k - 8 * (offset / 8) ↔ offset ≤ k := by omega
        rw [decide_eq_true hk, Bool.true_and, hb.lastMask_keeps hk.2, hsub, decide_eq_decide.mpr hle,
          Bool.decide_and, Bool.and_right_comm]
      · have hnone : ¬ (offset ≤ k ∧ k < b.bitLength) := by omega
        rw [decide_eq_false hk, decide_eq_false hnone, Bool.false_and, Bool.false_and]

/--
A write turns on the bits of the word at the places from the offset on that are within the
capacity, and leaves every other bit as it was, whatever the buffer holds. Byte by byte it does the
same: no access leaves the bytes, and the window keeps the whole word.
-/
theorem write_exactly_field (hb : b.bytes.size = (b.bitLength + 7) / 8)
    (hlimit : b.bitLength < sizeLimit) (value : Word) (offset : ℕ) :
    (∀ k < 8 * b.bytes.size, Bytes.bit (b.write value offset).bytes k = true ↔
      Bytes.bit b.bytes k = true ∨
        (offset ≤ k ∧ k < b.bitLength ∧ k - offset < 64 ∧ value.getLsbD (k - offset) = true)) ∧
    (b.write value offset).bytes.size = b.bytes.size ∧
    (b.write value offset).bitLength = b.bitLength ∧
    b.writeWindow value offset = .ok (b.write value offset) ∧
    (window value offset).toNat = value.toNat * 2 ^ (offset % 8) ∧
    (b.bitLength ≤ offset → b.write value offset = b) := by
  refine ⟨fun k _ => ?_, b.size_write value offset, b.bitLength_write value offset,
    writeWindow_eq hb hlimit value offset, toNat_window value offset, write_of_le⟩
  have hword : value.getLsbD (k - offset) = true → k - offset < 64 := BitVec.lt_of_getLsbD
  rw [bit_write b (Sized.bitLength_le hb), Bool.or_eq_true, Bool.and_eq_true, decide_eq_true_iff]
  tauto

theorem write_exactly_field_cut :
    (#[0x03, 0xF0] : Array UInt8).size = (12 + 7) / 8 ∧ 12 < sizeLimit ∧
      (⟨#[0x03, 0xF0], 12⟩ : BitBuffer).writeWindow 0xFFFF 7 = .ok ⟨#[0x83, 0xFF], 12⟩ := by
  have hsize : (#[0x03, 0xF0] : Array UInt8).size = (12 + 7) / 8 := rfl
  have hlimit : 12 < sizeLimit := by decide
  have h := write_exactly_field (b := ⟨#[0x03, 0xF0], 12⟩) hsize hlimit 0xFFFF 7
  refine ⟨hsize, hlimit, h.2.2.2.1.trans ?_⟩
  rfl

end BitBuffer

end PackedStream
