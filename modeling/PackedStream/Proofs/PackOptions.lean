import Mathlib
import PackedStream.PackOptions

namespace PackedStream

theorem sizeLimit_eq : sizeLimit = 18446744073709551616 := rfl

namespace PackOptions

/-- Options that pass the check and whose chunk can be rounded up without leaving the sizes. -/
structure Usable (o : PackOptions) : Prop where
  valid : o.validate = .ok ()
  chunk_le : o.chunk ≤ sizeLimit - 8

/-- Whether so many values are enough to ask for the chunk, and it cannot be rounded up. -/
def Overflows (o : PackOptions) (count : ℕ) : Prop :=
  o.threshold ≤ count ∧ sizeLimit - 8 < o.chunk

variable {o : PackOptions} {count : ℕ}

theorem usable_default : Usable {} := ⟨rfl, by decide⟩

theorem usable_sequential : Usable sequential := ⟨rfl, by decide⟩

theorem not_overflows_of_le (h : o.chunk ≤ sizeLimit - 8) (count : ℕ) : ¬ o.Overflows count :=
  fun hover => not_lt.mpr h hover.2

theorem chunk_pos (hvalid : o.validate = .ok ()) : 0 < o.chunk := by
  apply Nat.pos_of_ne_zero
  intro hzero
  rw [validate, if_pos hzero] at hvalid
  cases hvalid

theorem roundedChunk_pos (o : PackOptions) : 0 < o.roundedChunk := by
  rw [roundedChunk]
  omega

theorem dvd_roundedChunk (o : PackOptions) : 8 ∣ o.roundedChunk := Nat.dvd_mul_left 8 _

theorem chunk_le_roundedChunk (o : PackOptions) : o.chunk ≤ o.roundedChunk := by
  rw [roundedChunk]
  omega

theorem roundedChunk_lt (hvalid : o.validate = .ok ()) : o.roundedChunk < o.chunk + 8 := by
  have hpos := chunk_pos hvalid
  rw [roundedChunk]
  omega

theorem roundedChunk_lt_sizeLimit_iff :
    o.roundedChunk < sizeLimit ↔ o.chunk ≤ sizeLimit - 8 := by
  rw [roundedChunk, sizeLimit_eq]
  omega

theorem cuts_iff : o.cuts count = true ↔ o.threshold ≤ count ∧ o.roundedChunk < count := by
  rw [cuts, Bool.and_eq_true, decide_eq_true_iff, decide_eq_true_iff]

end PackOptions

end PackedStream
