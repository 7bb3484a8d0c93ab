import PackedStream.Proofs.Pack
import PackedStream.Tensor.MergeTree

namespace PackedStream.MergeTree

def covers (ranges : List (ℕ × ℕ)) (i : ℕ) : Bool := ranges.any fun r => r.1 ≤ i ∧ i < r.2

@[simp]
theorem covers_nil (i : ℕ) : covers [] i = false := rfl

@[simp]
theorem covers_append (xs ys : List (ℕ × ℕ)) (i : ℕ) :
    covers (xs ++ ys) i = (covers xs i || covers ys i) := List.any_append

theorem covers_perm {xs ys : List (ℕ × ℕ)} (h : xs.Perm ys) (i : ℕ) : covers xs i = covers ys i :=
  h.any_eq

@[simp]
theorem ranges_halving (depth : ℕ) (ranges : List (ℕ × ℕ)) :
    (halving depth ranges).ranges = ranges := by
  induction depth generalizing ranges with
  | zero => rfl
  | succ depth ih =>
    unfold halving
    split
    · rfl
    · simp only [MergeTree.ranges, ih, List.take_append_drop]

variable {f : FieldFormat} {t : HostType} {data : Array t.Value}

structure Filled (f : FieldFormat) {t : HostType} (data : Array t.Value) (ranges : List (ℕ × ℕ))
    (b : BitBuffer) : Prop where
  bitLength_eq : b.bitLength = data.size * f.width
  size_eq : b.bytes.size = (data.size * f.width + 7) / 8
  bit_eq : ∀ k, Bytes.bit b.bytes k =
    (covers ranges (k / f.width) && streamBit f.width (f.encodeAll data.toList) k)

namespace Filled

variable {xs ys : List (ℕ × ℕ)} {a b : BitBuffer}

theorem zeros : Filled f data [] (BitBuffer.zeros (data.size * f.width)) := by
  constructor <;> simp

theorem writeRange (hf : f.validate = .ok ()) (h : Filled f data xs b) {r : ℕ × ℕ}
    (hr : r.1 ≤ r.2 ∧ r.2 ≤ data.size) : Filled f data (xs ++ [r]) (writeRange f data b r) := by
  have hcapacity : b.bitLength ≤ 8 * b.bytes.size := by
    rw [h.bitLength_eq, h.size_eq]
    omega
  have hfields : f.encodeAll (data.extract r.1 r.2).toList =
      ((f.encodeAll data.toList).drop r.1).take (r.2 - r.1) := by
    rw [FieldFormat.encodeAll, FieldFormat.encodeAll, Array.toList_extract,
      List.extract_eq_take_drop, List.map_take, List.map_drop]
  have hfit : r.1 * f.width + (f.encodeAll (data.extract r.1 r.2).toList).length * f.width ≤
      b.bitLength := by
    rw [FieldFormat.length_encodeAll, Array.length_toList, Array.size_extract, ← Nat.add_mul,
      h.bitLength_eq]
    exact Nat.mul_le_mul_right f.width (by omega)
  constructor
  · rw [MergeTree.writeRange, BitBuffer.bitLength_writeAll, h.bitLength_eq]
  · rw [MergeTree.writeRange, BitBuffer.size_writeAll, h.size_eq]
  · intro k
    rw [MergeTree.writeRange, BitBuffer.bit_writeAll b (FieldFormat.width_pos hf) hcapacity _ _
      (fun _ => FieldFormat.lt_of_mem_encodeAll) hfit, h.bit_eq, hfields,
      streamBit_slice (FieldFormat.width_pos hf), covers_append, Bool.and_or_distrib_right]
    simp [covers]

theorem foldl_writeRange (hf : f.validate = .ok ()) (h : Filled f data xs b)
    (hys : ∀ r ∈ ys, r.1 ≤ r.2 ∧ r.2 ≤ data.size) :
    Filled f data (xs ++ ys) (ys.foldl (MergeTree.writeRange f data) b) := by
  induction ys generalizing xs b with
  | nil => rwa [List.append_nil]
  | cons r ys ih =>
    have hr := h.writeRange hf (hys r List.mem_cons_self)
    have hrest := ih hr (fun s hs => hys s (List.mem_cons_of_mem r hs))
    rwa [List.append_assoc, List.singleton_append] at hrest

theorem merge (ha : Filled f data xs a) (hb : Filled f data ys b) :
    ∃ c, a.merge b = .ok c ∧ Filled f data (xs ++ ys) c := by
  have hsize : a.bytes.size = b.bytes.size := by rw [ha.size_eq, hb.size_eq]
  obtain ⟨c, hc, hlength, hbytes, hbit⟩ := a.merge_of_size_eq b hsize
  refine ⟨c, hc, ?_, ?_, ?_⟩
  · rw [hlength, ha.bitLength_eq]
  · rw [hbytes, ha.size_eq]
  · intro k
    rw [hbit, ha.bit_eq, hb.bit_eq, covers_append, Bool.and_or_distrib_right]

theorem bytes_eq (hf : f.validate = .ok ()) (h : Filled f data xs b)
    (hxs : ∀ i < data.size, covers xs i = true) :
    b.bytes = (f.buffer data.toList).bytes := by
  have hpacked : Packed f.width (f.encodeAll data.toList) b.bytes := by
    constructor
    · rw [h.size_eq, FieldFormat.length_encodeAll, Array.length_toList]
    · intro k
      rw [h.bit_eq]
      by_cases hk : k / f.width < data.size
      · rw [hxs _ hk, Bool.true_and]
      · have hbehind : (f.encodeAll data.toList).length * f.width ≤ k := by
          rw [FieldFormat.length_encodeAll, Array.length_toList]
          exact (Nat.le_div_iff_mul_le (FieldFormat.width_pos hf)).mp (Nat.le_of_not_lt hk)
        rw [streamBit_of_le (FieldFormat.width_pos hf) hbehind, Bool.and_false]
  exact hpacked.unique (FieldFormat.buffer_packed hf data.toList)

end Filled

theorem fill_filled (hf : f.validate = .ok ()) (tree : MergeTree)
    (hranges : ∀ r ∈ tree.ranges, r.1 ≤ r.2 ∧ r.2 ≤ data.size) :
    ∃ b, tree.fill f data = .ok b ∧ Filled f data tree.ranges b := by
  induction tree with
  | zeros => exact ⟨_, rfl, .zeros⟩
  | worker ranges =>
    have hzeros : Filled f data [] (BitBuffer.zeros (data.size * f.width)) := .zeros
    exact ⟨_, rfl, hzeros.foldl_writeRange hf hranges⟩
  | merge left right ihl ihr =>
    obtain ⟨a, hleft, ha⟩ := ihl (fun r hr => hranges r (List.mem_append_left _ hr))
    obtain ⟨b, hright, hb⟩ := ihr (fun r hr => hranges r (List.mem_append_right _ hr))
    obtain ⟨c, hmerge, hc⟩ := ha.merge hb
    refine ⟨c, ?_, hc⟩
    rw [fill, hleft, hright]
    exact hmerge

end PackedStream.MergeTree
