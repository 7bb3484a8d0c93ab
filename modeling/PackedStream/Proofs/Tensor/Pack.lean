import PackedStream.Proofs.Tensor
import PackedStream.Proofs.Tensor.MergeTree
import PackedStream.Tensor.Pack

namespace PackedStream.Tensor

variable {f : FieldFormat} {t : HostType} {data : Array t.Value} {x : Tensor t.Value}

section Slices

variable (hf : f.validate = .ok ()) (hx : Shaped data x) (hbits : 8 ∣ x.inner * f.width)

include hbits in
theorem bits_of_slice {slice : List t.Value} (hslice : slice ∈ x.slices.map Array.toList) :
    slice.length * f.width = 8 * (x.inner * f.width / 8) := by
  rw [length_of_mem_slices hslice, Nat.mul_div_cancel' hbits]

theorem sliceBlocks_eq (f : FieldFormat) (x : Tensor t.Value) :
    x.sliceBlocks f = (x.slices.map Array.toList).mapIdx fun i slice =>
      (i * (x.inner * f.width / 8), (f.buffer slice).bytes) := by
  apply List.ext_getElem?
  intro i
  simp [sliceBlocks, Function.comp_def]

include hf hx hbits

theorem runPack_aligned : x.runPack f .aligned = .ok (f.buffer x.data.toList).bytes := by
  have htile := FieldFormat.placeAll_buffers hf (x.slices.map Array.toList)
    fun _ hslice => bits_of_slice hbits (List.mem_of_mem_dropLast hslice)
  rw [hx.flatten_slices, ← sliceBlocks_eq, Array.length_toList] at htile
  rw [runPack, htile]

theorem pieces_aligned :
    pieces (x.inner * f.width / 8) (f.buffer x.data.toList).bytes.toList =
      (x.sliceBlocks f).map fun block => block.2.toList := by
  have hcut := FieldFormat.pieces_buffer hf (x.slices.map Array.toList)
    (fun _ hslice => bits_of_slice hbits (List.mem_of_mem_dropLast hslice))
    (fun _ hslice => ⟨(length_of_mem_slices hslice).symm ▸ hx.inner_pos,
      (bits_of_slice hbits hslice).le⟩)
  rw [hx.flatten_slices] at hcut
  rw [hcut, sliceBlocks_eq, toList_mapIdx]

end Slices

theorem fill_eq_buffer (hf : f.validate = .ok ()) (hx : Shaped data x) {tree : MergeTree}
    (htree : tree.ranges.Perm x.ranges) :
    ∃ b, tree.fill f x.data = .ok b ∧ b.bytes = (f.buffer x.data.toList).bytes := by
  have hranges : ∀ r ∈ tree.ranges, r.1 ≤ r.2 ∧ r.2 ≤ x.data.size := by
    intro r hr
    obtain ⟨hlen, hle⟩ := of_mem_ranges (htree.mem_iff.mp hr)
    omega
  have hcovers : ∀ i < x.data.size, MergeTree.covers tree.ranges i = true := by
    intro i hi
    obtain ⟨r, hr, hlow, hhigh⟩ := hx.exists_range hi
    rw [MergeTree.covers_perm htree]
    exact List.any_eq_true.mpr ⟨r, hr, decide_eq_true ⟨hlow, hhigh⟩⟩
  obtain ⟨b, hb, hfilled⟩ := tree.fill_filled hf hranges
  exact ⟨b, hb, hfilled.bytes_eq hf hcovers⟩

theorem runPack_merged (hf : f.validate = .ok ()) (hx : Shaped data x) :
    x.runPack f .merged = .ok (f.buffer x.data.toList).bytes := by
  have htree : (MergeTree.halving 3 x.ranges).ranges.Perm x.ranges := by
    rw [MergeTree.ranges_halving]
  obtain ⟨b, hb, hbytes⟩ := fill_eq_buffer hf hx htree
  rw [runPack, hb, ← hbytes]
  rfl

theorem packPlan_cases (hf : f.validate = .ok ()) {o : PackOptions} (ho : o.validate = .ok ())
    (x : Tensor t.Value) :
    ∃ plan, x.packPlan f o = .ok plan ∧ (plan = .aligned → 8 ∣ x.inner * f.width) := by
  unfold packPlan
  simp only [hf, ho, bind, Except.bind]
  by_cases hcuts : o.cuts x.data.size = true
  · by_cases hmod : x.inner * f.width % 8 = 0
    · exact ⟨.aligned, by simp [hcuts, hmod, pure, Except.pure], fun _ => Nat.dvd_of_mod_eq_zero hmod⟩
    · exact ⟨.merged, by simp [hcuts, hmod, pure, Except.pure], fun h => by cases h⟩
  · exact ⟨.whole, by simp [hcuts, pure, Except.pure], fun h => by cases h⟩

theorem pack_eq_buffer (hf : f.validate = .ok ()) (hx : Shaped data x) {o : PackOptions}
    (ho : o.validate = .ok ()) : x.pack f o = .ok (f.buffer x.data.toList).bytes := by
  obtain ⟨plan, hplan, haligned⟩ := packPlan_cases hf ho x
  rw [pack, hplan]
  cases plan with
  | whole => rfl
  | aligned => exact runPack_aligned hf hx (haligned rfl)
  | merged => exact runPack_merged hf hx

/--
A tensor packs to the bytes of its flat data, whatever way is taken. Slices of whole bytes tile
them, and so do the buffers of any workers that share the slices, merged in any order.
-/
theorem pack_eq_flat (hf : f.validate = .ok ()) (hx : Shaped data x) :
    ∃ bytes : Array UInt8,
      (x.data = data ∧ f.pack x.data.toList = .ok bytes) ∧
      (∀ o : PackOptions, o.Usable → x.pack f o = .ok bytes) ∧
      (x.runPack f .whole = .ok bytes ∧
        (8 ∣ x.inner * f.width → x.runPack f .aligned = .ok bytes ∧
          pieces (x.inner * f.width / 8) bytes.toList =
            (x.sliceBlocks f).map fun block => block.2.toList) ∧
        x.runPack f .merged = .ok bytes) ∧
      ∀ tree : MergeTree, tree.ranges.Perm x.ranges →
        ∃ b, tree.fill f x.data = .ok b ∧ b.bytes = bytes := by
  refine ⟨(f.buffer x.data.toList).bytes, ⟨hx.data_eq, ?_⟩, ?_, ⟨rfl, ?_, ?_⟩, ?_⟩
  · exact FieldFormat.pack_eq_buffer hf PackOptions.usable_default.valid x.data.toList
  · exact fun o ho => pack_eq_buffer hf hx ho.valid
  · exact fun hbits => ⟨runPack_aligned hf hx hbits, pieces_aligned hf hx hbits⟩
  · exact runPack_merged hf hx
  · exact fun tree htree => fill_eq_buffer hf hx htree

theorem pack_eq_flat_unaligned :
    (FieldFormat.int 5).validate = .ok () ∧
      ∃ x : Tensor HostType.i8.Value, ∃ bytes,
        Shaped #[-3, 2, 1, -1, 0, 5, -16, 15, -2] x ∧ ¬ 8 ∣ x.inner * 5 ∧
        (FieldFormat.int 5).pack (t := .i8) x.data.toList = .ok bytes ∧
        x.pack (.int 5) ⟨0, 1⟩ = .ok bytes ∧
        ∃ b, (MergeTree.merge (.merge .zeros (.worker [(6, 9)]))
          (.merge (.worker [(0, 3), (3, 6)]) (.merge .zeros .zeros))).fill (.int 5) x.data = .ok b ∧
          b.bytes = bytes := by
  let data : Array HostType.i8.Value := #[-3, 2, 1, -1, 0, 5, -16, 15, -2]
  have hshape : Tensor.ofShape data [3, 3] = .ok ⟨data, [3, 3]⟩ := rfl
  have hx : Shaped data ⟨data, [3, 3]⟩ := .ofShape hshape
  obtain ⟨bytes, ⟨-, hflat⟩, hpack, -, hfill⟩ := pack_eq_flat (f := .int 5) (t := .i8) rfl hx
  have ho : PackOptions.Usable ⟨0, 1⟩ := ⟨rfl, by decide⟩
  refine ⟨rfl, _, bytes, hx, by decide, hflat, hpack _ ho, hfill _ ?_⟩
  decide

end PackedStream.Tensor
