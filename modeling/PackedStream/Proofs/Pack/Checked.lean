import PackedStream.Pack.Checked
import PackedStream.Proofs.BitBuffer.Window
import PackedStream.Proofs.Tensor.Pack
import PackedStream.Proofs.Unpack.Checked

/-!
No step of packing in the arithmetic of words is a fault, as long as the bits of the stream are
counted by a size and the chunk, if it is asked for, can be rounded up.
-/

namespace PackedStream.Checked

theorem cut_of_pos {α : Type} {n : ℕ} (hn : 0 < n) (xs : List α) : cut n xs = .ok (pieces n xs) :=
  if_neg hn.ne'

section Pieces

variable {f : FieldFormat} {t : HostType}

theorem mul_width_lt {count : ℕ} (hbits : 8 * (f.packedLength count).1 < sizeLimit) :
    count * f.width < sizeLimit := by
  change 8 * ((count * f.width + 7) / 8) < sizeLimit at hbits
  omega

theorem byteCount_eq {count : ℕ} (hbits : 8 * (f.packedLength count).1 < sizeLimit) :
    byteCount f count = .ok (f.packedLength count).1 := by
  have hbytes : (count * f.width + 7) / 8 * 8 < sizeLimit := by
    rw [Nat.mul_comm]
    exact hbits
  rw [byteCount, asSize_of_lt (mul_width_lt hbits)]
  simp only [bind, Except.bind, asSize_of_lt hbytes]
  rfl

theorem writeAll_eq {b : BitBuffer} (hb : b.Sized) (hlimit : b.bitLength < sizeLimit) {i : ℕ}
    {values : List t.Value} (hplaces : (i + values.length) * f.width < sizeLimit) :
    writeAll f b i values = .ok (b.writeAll f.width (i * f.width) (f.encodeAll values)) := by
  induction values generalizing b i with
  | nil => rfl
  | cons v values ih =>
    have hplace : i * f.width < sizeLimit :=
      lt_of_le_of_lt (Nat.mul_le_mul_right f.width (Nat.le_add_right i _)) hplaces
    rw [List.length_cons, ← Nat.add_assoc, Nat.add_right_comm] at hplaces
    rw [writeAll, asSize_of_lt hplace]
    simp only [bind, Except.bind, BitBuffer.writeWindow_eq hb hlimit]
    rw [ih (hb.write _ _) (by rwa [BitBuffer.bitLength_write]) hplaces, Nat.succ_mul]
    rfl

theorem buffer_eq {values : List t.Value} (hbits : values.length * f.width < sizeLimit) :
    buffer f values = .ok (f.buffer values) := by
  have hwrite : writeAll f (.zeros (values.length * f.width)) 0 values = _ :=
    writeAll_eq (BitBuffer.sized_zeros _) hbits (by rwa [Nat.zero_add])
  rw [buffer, asSize_of_lt hbits]
  simp only [bind, Except.bind, hwrite, Nat.zero_mul]
  rfl

theorem fillPieces_eq {cs : List (List t.Value)}
    (hbits : ∀ c ∈ cs, c.length * f.width < sizeLimit) :
    fillPieces f (cs.map fun c => List.replicate (f.buffer c).bytes.toList.length 0) cs =
      .ok (cs.flatMap fun c => (f.buffer c).bytes.toList) := by
  induction cs with
  | nil => rfl
  | cons c cs ih =>
    rw [List.forall_mem_cons] at hbits
    rw [List.map_cons, fillPieces, buffer_eq hbits.1]
    simp only [bind, Except.bind, List.length_replicate, Array.length_toList, if_true]
    simp only [Array.length_toList] at ih
    rw [ih hbits.2]
    rfl

theorem fillPieces_pieces (hf : f.validate = .ok ()) {step : ℕ} (cs : List (List t.Value))
    (hstep : ∀ c ∈ cs.dropLast, c.length * f.width = 8 * step)
    (hlast : ∀ c ∈ cs, 0 < c.length ∧ c.length * f.width ≤ 8 * step)
    (hbits : ∀ c ∈ cs, c.length * f.width < sizeLimit) :
    fillPieces f (pieces step (List.replicate (f.packedLength cs.flatten.length).1 0)) cs =
      .ok (f.buffer cs.flatten).bytes.toList := by
  have hlength : (f.packedLength cs.flatten.length).1 =
      (f.buffer cs.flatten).bytes.toList.length := by
    rw [FieldFormat.packedLength_eq_size hf, Array.length_toList]
  rw [hlength, pieces_replicate, FieldFormat.pieces_buffer hf cs hstep hlast, List.map_map]
  refine (fillPieces_eq hbits).trans ?_
  rw [FieldFormat.buffer_flatten hf fun c hc => hstep c hc ▸ Nat.dvd_mul_right 8 step]

end Pieces

section Pack

variable {f : FieldFormat} {t : HostType} {values : List t.Value} {o : PackOptions}

theorem runPack_whole (hbits : 8 * (f.packedLength values.length).1 < sizeLimit) :
    runPack f values .whole = .ok (f.buffer values).bytes := by
  rw [runPack, buffer_eq (mul_width_lt hbits)]
  rfl

theorem runPack_chunks (hf : f.validate = .ok ())
    (hbits : 8 * (f.packedLength values.length).1 < sizeLimit) {size : ℕ} (hpos : 0 < size)
    (hdvd : 8 ∣ size) (hlt : size < values.length) :
    runPack f values (.chunks size) = .ok (f.buffer values).bytes := by
  have hwhole : 8 * (size / 8 * f.width) = size * f.width := by
    rw [← Nat.mul_assoc, Nat.mul_div_cancel' hdvd]
  have hstep : size / 8 * f.width < sizeLimit := by
    have hle := Nat.mul_le_mul_right f.width hlt.le
    have hcount := mul_width_lt hbits
    omega
  have hsteppos : 0 < size / 8 * f.width :=
    Nat.mul_pos (Nat.div_pos (Nat.le_of_dvd hpos hdvd) (by decide)) (FieldFormat.width_pos hf)
  have hchunk : ∀ c ∈ pieces size values, c.length * f.width < sizeLimit := by
    intro c hc
    have hle := (length_of_mem_pieces hc).2.trans hlt.le
    exact lt_of_le_of_lt (Nat.mul_le_mul_right f.width hle) (mul_width_lt hbits)
  have hfill := fillPieces_pieces hf (pieces size values)
    (fun _ => FieldFormat.bits_of_full_chunk hdvd) (fun _ => FieldFormat.bits_of_chunk_le hdvd)
    hchunk
  rw [flatten_pieces hpos] at hfill
  rw [runPack, asSize_of_lt hstep]
  simp only [bind, Except.bind, byteCount_eq hbits, cut_of_pos hsteppos, cut_of_pos hpos, hfill]
  rfl

variable (hf : f.validate = .ok ()) (ho : o.validate = .ok ())

include hf ho

theorem pack_of_not_overflows (hbits : 8 * (f.packedLength values.length).1 < sizeLimit)
    (h : f.Copies t ∨ ¬ o.Overflows values.length) :
    pack f values o = .ok (f.buffer values).bytes := by
  rw [pack, packPlan, hf, ho]
  simp only [bind, Except.bind, Except.mapError]
  cases hcopy : if f.width = 8 ∧ f.isInteger = true then t.toBytes? values else none with
  | some bytes =>
    obtain ⟨⟨h8, hint⟩, hbytes⟩ := Option.ite_none_right_eq_some.mp hcopy
    exact congrArg Except.ok
      ((FieldFormat.copy_packed h8 hint hbytes).unique (FieldFormat.buffer_packed hf values))
  | none =>
    have hover := h.resolve_left (FieldFormat.toBytes_eq_none_iff.mp hcopy)
    simp only [cuts_eq hover]
    cases hcuts : o.cuts values.length with
    | true =>
      simp only [roundedChunk_of_cuts hover hcuts, if_true]
      exact runPack_chunks hf hbits o.roundedChunk_pos o.dvd_roundedChunk
        (PackOptions.cuts_iff.mp hcuts).2
    | false => exact runPack_whole hbits

theorem pack_of_overflows (hcopies : ¬ f.Copies t) (hover : o.Overflows values.length) :
    pack f values o = .error .overflow := by
  rw [pack, packPlan, hf, ho]
  simp only [bind, Except.bind, Except.mapError, FieldFormat.toBytes_eq_none_iff.mpr hcopies,
    cuts_of_overflows hover]

end Pack

theorem pack_eq {f : FieldFormat} {t : HostType} {values : List t.Value} {o : PackOptions}
    (hbits : 8 * (f.packedLength values.length).1 < sizeLimit)
    (h : f.validate = .ok () → f.Copies t ∨ ¬ o.Overflows values.length) :
    pack f values o = (f.pack values o).mapError .refused := by
  cases hf : f.validate with
  | error e =>
    rw [pack, packPlan, FieldFormat.pack, FieldFormat.packPlan, hf]
    rfl
  | ok _ =>
    cases ho : o.validate with
    | error e =>
      rw [pack, packPlan, FieldFormat.pack, FieldFormat.packPlan, hf, ho]
      rfl
    | ok _ =>
      rw [pack_of_not_overflows hf ho hbits (h hf), FieldFormat.pack_eq_buffer hf ho]
      rfl

section Tensor

variable {f : FieldFormat} {t : HostType} {data : Array t.Value} {x : Tensor t.Value}
  {tree : MergeTree} {o : PackOptions}

theorem foldlM_writeAll {ranges : List (ℕ × ℕ)}
    (hranges : ∀ r ∈ ranges, r.1 ≤ r.2 ∧ r.2 ≤ data.size)
    (hbits : data.size * f.width < sizeLimit) {b : BitBuffer} (hb : b.Sized)
    (hlimit : b.bitLength < sizeLimit) :
    ranges.foldlM (fun b r => writeAll f b r.1 (data.extract r.1 r.2).toList) b =
      .ok (ranges.foldl (MergeTree.writeRange f data) b) := by
  induction ranges generalizing b with
  | nil => rfl
  | cons r ranges ih =>
    rw [List.forall_mem_cons] at hranges
    have hlength : r.1 + (data.extract r.1 r.2).toList.length = r.2 := by
      rw [Array.length_toList, Array.size_extract]
      omega
    have hplaces : (r.1 + (data.extract r.1 r.2).toList.length) * f.width < sizeLimit := by
      rw [hlength]
      exact lt_of_le_of_lt (Nat.mul_le_mul_right f.width hranges.1.2) hbits
    rw [List.foldlM_cons, writeAll_eq hb hlimit hplaces, List.foldl_cons]
    refine ih hranges.2 ?_ ?_
    · rwa [BitBuffer.Sized, BitBuffer.size_writeAll, BitBuffer.bitLength_writeAll]
    · rwa [BitBuffer.bitLength_writeAll]

theorem fill_eq (hf : f.validate = .ok ())
    (hranges : ∀ r ∈ tree.ranges, r.1 ≤ r.2 ∧ r.2 ≤ data.size)
    (hbits : data.size * f.width < sizeLimit) :
    fill f data tree = (tree.fill f data).mapError .refused := by
  induction tree with
  | zeros =>
    rw [fill, asSize_of_lt hbits]
    rfl
  | worker ranges =>
    rw [fill, asSize_of_lt hbits]
    exact foldlM_writeAll hranges hbits (BitBuffer.sized_zeros _) hbits
  | merge left right ihl ihr =>
    have hleft : ∀ r ∈ left.ranges, r.1 ≤ r.2 ∧ r.2 ≤ data.size :=
      fun r hr => hranges r (List.mem_append_left _ hr)
    have hright : ∀ r ∈ right.ranges, r.1 ≤ r.2 ∧ r.2 ≤ data.size :=
      fun r hr => hranges r (List.mem_append_right _ hr)
    obtain ⟨b, hb, -⟩ := left.fill_filled hf hleft
    obtain ⟨c, hc, -⟩ := right.fill_filled hf hright
    rw [fill, ihl hleft, ihr hright, MergeTree.fill, hb, hc]
    rfl

theorem packTensor_of_overflows (hf : f.validate = .ok ()) (ho : o.validate = .ok ())
    (hover : o.Overflows x.data.size) : packTensor f x o tree = .error .overflow := by
  rw [packTensor, packTensorPlan, hf, ho]
  simp only [bind, Except.bind, Except.mapError, cuts_of_overflows hover]

variable (hx : Tensor.Shaped data x) (hbits : 8 * (f.packedLength x.data.size).1 < sizeLimit)

include hx hbits

theorem inner_mul_width_lt : x.inner * f.width < sizeLimit := by
  obtain ⟨-, hzero, hprod, -⟩ := Shape.check_eq_ok_iff.mp hx.check_eq
  have hpos : 0 < x.data.size := hprod ▸ Shape.prod_pos hzero
  have hle : x.inner ≤ x.data.size := Nat.le_of_dvd hpos hx.inner_dvd
  exact lt_of_le_of_lt (Nat.mul_le_mul_right f.width hle) (mul_width_lt hbits)

theorem runPackTensor_aligned (hf : f.validate = .ok ()) (hwhole : 8 ∣ x.inner * f.width) :
    runPackTensor f x tree .aligned = .ok (f.buffer x.data.toList).bytes := by
  have hinner := inner_mul_width_lt hx hbits
  have hstep : 0 < x.inner * f.width / 8 :=
    Nat.div_pos (Nat.le_of_dvd (Nat.mul_pos hx.inner_pos (FieldFormat.width_pos hf)) hwhole)
      (by decide)
  have hslice : ∀ slice ∈ x.slices.map Array.toList,
      slice.length * f.width = 8 * (x.inner * f.width / 8) :=
    fun _ => Tensor.bits_of_slice hwhole
  have hfill := fillPieces_pieces hf _ (fun c hc => hslice c (List.mem_of_mem_dropLast hc))
    (fun c hc => ⟨(Tensor.length_of_mem_slices hc).symm ▸ hx.inner_pos, (hslice c hc).le⟩)
    (fun c hc => (Tensor.length_of_mem_slices hc).symm ▸ hinner)
  rw [hx.flatten_slices, Array.length_toList] at hfill
  rw [runPackTensor, asSize_of_lt hinner]
  simp only [bind, Except.bind, byteCount_eq hbits, cut_of_pos hstep, hfill]
  rfl

variable (htree : tree.ranges.Perm x.ranges)

include htree

theorem runPackTensor_merged (hf : f.validate = .ok ()) :
    runPackTensor f x tree .merged = .ok (f.buffer x.data.toList).bytes := by
  have hranges : ∀ r ∈ tree.ranges, r.1 ≤ r.2 ∧ r.2 ≤ x.data.size := by
    intro r hr
    obtain ⟨hlen, hle⟩ := Tensor.of_mem_ranges (htree.mem_iff.mp hr)
    omega
  obtain ⟨b, hb, hbytes⟩ := Tensor.fill_eq_buffer hf hx htree
  rw [runPackTensor, fill_eq hf hranges (mul_width_lt hbits), hb, ← hbytes]
  rfl

theorem packTensor_of_not_overflows (hf : f.validate = .ok ()) (ho : o.validate = .ok ())
    (hover : ¬ o.Overflows x.data.size) :
    packTensor f x o tree = .ok (f.buffer x.data.toList).bytes := by
  rw [packTensor, packTensorPlan, hf, ho]
  simp only [bind, Except.bind, Except.mapError, cuts_eq hover,
    asSize_of_lt (inner_mul_width_lt hx hbits)]
  cases hcuts : o.cuts x.data.size with
  | true =>
    by_cases hmod : x.inner * f.width % 8 = 0
    · simp only [hmod, if_true, pure, Except.pure]
      exact runPackTensor_aligned hx hbits hf (Nat.dvd_of_mod_eq_zero hmod)
    · simp only [hmod, if_true, if_false, pure, Except.pure]
      exact runPackTensor_merged hx hbits htree hf
  | false =>
    have hbuffer : buffer f x.data.toList = .ok (f.buffer x.data.toList) :=
      buffer_eq (by simpa using mul_width_lt hbits)
    simp only [runPackTensor, hbuffer, pure, Except.pure, bind, Except.bind]
    rfl

theorem packTensor_eq (h : f.validate = .ok () → ¬ o.Overflows x.data.size) :
    packTensor f x o tree = (x.pack f o).mapError .refused := by
  cases hf : f.validate with
  | error e =>
    rw [packTensor, packTensorPlan, Tensor.pack, Tensor.packPlan, hf]
    rfl
  | ok _ =>
    cases ho : o.validate with
    | error e =>
      rw [packTensor, packTensorPlan, Tensor.pack, Tensor.packPlan, hf, ho]
      rfl
    | ok _ =>
      rw [packTensor_of_not_overflows hx hbits htree hf ho (h hf), Tensor.pack_eq_buffer hf hx ho]
      rfl

end Tensor

end PackedStream.Checked
