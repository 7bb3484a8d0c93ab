import PackedStream.Proofs.Blocks
import PackedStream.Proofs.Shape
import PackedStream.Tensor

namespace PackedStream.Tensor

variable {α : Type} {data : Array α} {x : Tensor α}

inductive Shaped (data : Array α) : Tensor α → Prop
  | ofShape {shape : Shape} {x : Tensor α} (hx : Tensor.ofShape data shape = .ok x) : Shaped data x
  | reshape {shape : Shape} {x y : Tensor α} (hx : Shaped data x) (hy : x.reshape shape = .ok y) :
      Shaped data y

theorem reshape_eq_ok_iff {shape : Shape} {y : Tensor α} :
    x.reshape shape = .ok y ↔ shape.check x.data.size = .ok () ∧ y = { x with shape } := by
  unfold reshape
  cases hcheck : shape.check x.data.size with
  | error e => simp [Except.map]
  | ok u => simp [Except.map, eq_comm]

theorem Shaped.data_eq (hx : Shaped data x) : x.data = data := by
  induction hx with
  | ofShape hx =>
    obtain ⟨-, rfl⟩ := reshape_eq_ok_iff.mp hx
    rfl
  | reshape _ hy ih =>
    obtain ⟨-, rfl⟩ := reshape_eq_ok_iff.mp hy
    exact ih

theorem Shaped.check_eq (hx : Shaped data x) : x.shape.check x.data.size = .ok () := by
  cases hx with
  | ofShape hx =>
    obtain ⟨hcheck, rfl⟩ := reshape_eq_ok_iff.mp hx
    exact hcheck
  | reshape _ hy =>
    obtain ⟨hcheck, rfl⟩ := reshape_eq_ok_iff.mp hy
    exact hcheck

theorem Shaped.inner_pos (hx : Shaped data x) : 0 < x.inner := by
  obtain ⟨hne, hzero, -⟩ := Shape.check_eq_ok_iff.mp hx.check_eq
  exact Shape.inner_pos hne hzero

theorem Shaped.inner_dvd (hx : Shaped data x) : x.inner ∣ x.data.size := by
  obtain ⟨hne, -, hprod, -⟩ := Shape.check_eq_ok_iff.mp hx.check_eq
  exact hprod ▸ Shape.inner_dvd_prod hne

theorem of_mem_ranges {r : ℕ × ℕ} (hr : r ∈ x.ranges) :
    r.2 = r.1 + x.inner ∧ r.2 ≤ x.data.size := by
  obtain ⟨s, hs, rfl⟩ := List.mem_map.mp hr
  have hle : (s + 1) * x.inner ≤ x.data.size / x.inner * x.inner :=
    Nat.mul_le_mul_right x.inner (Nat.succ_le_of_lt (List.mem_range.mp hs))
  exact ⟨Nat.succ_mul s x.inner, hle.trans (Nat.div_mul_le_self _ _)⟩

theorem Shaped.exists_range (hx : Shaped data x) {i : ℕ} (hi : i < x.data.size) :
    ∃ r ∈ x.ranges, r.1 ≤ i ∧ i < r.2 := by
  have hpos := hx.inner_pos
  refine ⟨_, List.mem_map.mpr ⟨i / x.inner, ?_, rfl⟩, ?_, ?_⟩
  · exact List.mem_range.mpr (Nat.div_lt_div_of_lt_of_dvd hx.inner_dvd hi)
  · exact Nat.div_mul_le_self i x.inner
  · change i < (i / x.inner + 1) * x.inner
    rw [Nat.mul_comm]
    exact Nat.lt_mul_div_succ i hpos

theorem flatten_slices_of_list (xs : List α) (m n : ℕ) :
    ((List.range m).map fun s => (xs.drop (s * n)).take n).flatten = xs.take (m * n) := by
  induction m with
  | zero => simp
  | succ m ih =>
    rw [List.range_succ, List.map_append, List.flatten_append, ih, Nat.succ_mul, List.take_add]
    simp

theorem toList_slices (x : Tensor α) :
    x.slices.map Array.toList = (List.range (x.data.size / x.inner)).map fun s =>
      (x.data.toList.drop (s * x.inner)).take x.inner := by
  rw [slices, ranges, List.map_map, List.map_map]
  apply List.map_congr_left
  intro s _
  have hlen : (s + 1) * x.inner - s * x.inner = x.inner := by
    rw [Nat.succ_mul, Nat.add_sub_cancel_left]
  simp only [Function.comp_apply]
  rw [Array.toList_extract, List.extract_eq_take_drop, hlen]

theorem Shaped.flatten_slices (hx : Shaped data x) :
    (x.slices.map Array.toList).flatten = x.data.toList := by
  rw [toList_slices, flatten_slices_of_list, Nat.div_mul_cancel hx.inner_dvd, List.take_of_length_le]
  rw [Array.length_toList]

theorem length_of_mem_slices {slice : List α} (hslice : slice ∈ x.slices.map Array.toList) :
    slice.length = x.inner := by
  rw [slices, List.map_map] at hslice
  obtain ⟨r, hr, rfl⟩ := List.mem_map.mp hslice
  obtain ⟨hlen, hle⟩ := of_mem_ranges hr
  rw [Function.comp_apply, Array.length_toList, Array.size_extract]
  omega

end PackedStream.Tensor
