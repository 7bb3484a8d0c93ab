import PackedStream.Proofs.BitBuffer.Window
import PackedStream.Proofs.Unpack.Checked

/-!
A field is read as the number that its bits make, and reading undoes writing: what has been written
to clear places comes back, and the fields beside it do not change.
-/

namespace PackedStream

namespace BitBuffer

variable {b : BitBuffer} {value : Word} {offset width : ℕ}

theorem field_write (hb : b.Sized) (hwidth : width ≤ 64) (hvalue : value.toNat < 2 ^ width)
    (hfit : offset + width ≤ b.bitLength)
    (hclear : ∀ j < width, Bytes.bit b.bytes (offset + j) = false) :
    Bytes.field (b.write value offset).bytes offset width = value := by
  apply BitVec.eq_of_getLsbD_eq
  intro j _
  rw [Bytes.getLsbD_field _ offset hwidth, bit_write b hb.bitLength_le]
  by_cases hj : j < width
  · have hwithin : offset ≤ offset + j ∧ offset + j < b.bitLength := by omega
    rw [hclear j hj, decide_eq_true hj, decide_eq_true hwithin, Nat.add_sub_cancel_left,
      Bool.true_and, Bool.true_and, Bool.false_or]
  · rw [decide_eq_false hj, Bool.false_and, getLsbD_of_toNat_lt hvalue (Nat.le_of_not_lt hj)]

theorem bit_write_of_disjoint (hb : b.Sized) (hvalue : value.toNat < 2 ^ width) {k : ℕ}
    (hk : k < offset ∨ offset + width ≤ k) :
    Bytes.bit (b.write value offset).bytes k = Bytes.bit b.bytes k := by
  rw [bit_write b hb.bitLength_le]
  obtain hbefore | hbehind := hk
  · rw [decide_eq_false (by omega), Bool.false_and, Bool.or_false]
  · rw [getLsbD_of_toNat_lt hvalue (by omega), Bool.and_false, Bool.or_false]

theorem field_write_of_disjoint (hb : b.Sized) (hvalue : value.toNat < 2 ^ width)
    {otherOffset otherWidth : ℕ} (hwidth : otherWidth ≤ 64)
    (hdisjoint : otherOffset + otherWidth ≤ offset ∨ offset + width ≤ otherOffset) :
    Bytes.field (b.write value offset).bytes otherOffset otherWidth =
      Bytes.field b.bytes otherOffset otherWidth := by
  apply Bytes.field_congr hwidth
  intro j hj
  apply bit_write_of_disjoint hb hvalue
  omega

end BitBuffer

namespace Checked

/--
A field is read, through its window and without a fault, as the number that its bits make; those
behind the end are 0. A word that is written to clear places of a buffer is read back from there, and
every field that does not overlap them is read as before.
-/
theorem field_exactly_bits (bytes : Array UInt8) {offset width : ℕ} (hoffset : offset < sizeLimit)
    (hwidth : width ≤ 64) :
    (∃ w : Word, field bytes offset width = .ok w ∧
      w.toNat = ∑ j ∈ Finset.range width, (Bytes.bit bytes (offset + j)).toNat * 2 ^ j) ∧
    ∀ b : BitBuffer, b.bytes.size = (b.bitLength + 7) / 8 → b.bitLength < sizeLimit →
      ∀ value : Word, value.toNat < 2 ^ width → offset + width ≤ b.bitLength →
        (∀ j < width, Bytes.bit b.bytes (offset + j) = false) →
        ∃ c, b.writeWindow value offset = .ok c ∧ field c.bytes offset width = .ok value ∧
          ∀ otherOffset otherWidth, otherOffset < sizeLimit → otherWidth ≤ 64 →
            otherOffset + otherWidth ≤ offset ∨ offset + width ≤ otherOffset →
            field c.bytes otherOffset otherWidth = field b.bytes otherOffset otherWidth := by
  refine ⟨⟨_, field_eq hoffset hwidth, Bytes.toNat_field bytes offset hwidth⟩, ?_⟩
  intro b hb hlimit value hvalue hfit hclear
  refine ⟨b.write value offset, BitBuffer.writeWindow_eq hb hlimit value offset, ?_, ?_⟩
  · rw [field_eq hoffset hwidth, BitBuffer.field_write hb hwidth hvalue hfit hclear]
  · intro otherOffset otherWidth hotherOffset hotherWidth hdisjoint
    rw [field_eq hotherOffset hotherWidth, field_eq hotherOffset hotherWidth,
      BitBuffer.field_write_of_disjoint hb hvalue hotherWidth hdisjoint]

theorem field_exactly_bits_spanning :
    7 < sizeLimit ∧ (64 : ℕ) ≤ 64 ∧
      (∃ w : Word, field #[0xFF, 0x01] 7 64 = .ok w ∧ w.toNat = 3) ∧
      ∃ c, (⟨#[0x7F, 0, 0, 0, 0, 0, 0, 0, 0x80, 0x07], 75⟩ : BitBuffer).writeWindow
          0x8000000000000001 7 = .ok c ∧
        field c.bytes 7 64 = .ok 0x8000000000000001 ∧
        field c.bytes 0 7 = field #[0x7F, 0, 0, 0, 0, 0, 0, 0, 0x80, 0x07] 0 7 ∧
        field c.bytes 71 64 = field #[0x7F, 0, 0, 0, 0, 0, 0, 0, 0x80, 0x07] 71 64 := by
  have hoffset : 7 < sizeLimit := by decide
  obtain ⟨⟨w, hread, hsum⟩, hwrite⟩ :=
    field_exactly_bits #[0xFF, 0x01] hoffset (le_refl 64)
  obtain ⟨c, hc, hback, hother⟩ :=
    hwrite ⟨#[0x7F, 0, 0, 0, 0, 0, 0, 0, 0x80, 0x07], 75⟩ rfl (by decide) 0x8000000000000001
      (by decide) (by decide) (by decide)
  refine ⟨hoffset, le_refl 64, ⟨w, hread, hsum.trans (by decide)⟩, c, hc, hback, ?_, ?_⟩
  · exact hother 0 7 (by decide) (by decide) (.inl (le_refl 7))
  · exact hother 71 64 (by decide) (by decide) (.inr (le_refl 71))

end Checked

end PackedStream
