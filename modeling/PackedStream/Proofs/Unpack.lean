import PackedStream.Proofs.Blocks
import PackedStream.Proofs.Field
import PackedStream.Proofs.Shape
import PackedStream.Tensor.Unpack

namespace PackedStream.FieldFormat

variable {f : FieldFormat} {t : HostType} {bytes : Array UInt8} {padding : ℕ} {o : PackOptions}

section Values

theorem valueAt_eq_sum (hf : f.validate = .ok ()) (t : HostType) (bytes : Array UInt8) (i : ℕ) :
    f.valueAt t bytes i = t.ofScalar (f.decode (BitVec.ofNat 64
      (∑ j ∈ Finset.range f.width, (Bytes.bit bytes (i * f.width + j)).toNat * 2 ^ j))) := by
  rw [valueAt, ← Bytes.toNat_field bytes _ (width_le hf), BitVec.ofNat_toNat, BitVec.setWidth_eq]

theorem valueAt_congr (hf : f.validate = .ok ()) {a b : Array UInt8} {i : ℕ}
    (h : ∀ j < f.width, Bytes.bit a (i * f.width + j) = Bytes.bit b (i * f.width + j)) :
    f.valueAt t a i = f.valueAt t b i := by
  rw [valueAt, valueAt, Bytes.field_congr (width_le hf) h]

theorem map_valueAt_congr (hf : f.validate = .ok ()) (t : HostType) {a b : Array UInt8} {count : ℕ}
    (h : ∀ k < count * f.width, Bytes.bit a k = Bytes.bit b k) :
    (List.range count).map (f.valueAt t a) = (List.range count).map (f.valueAt t b) := by
  apply List.map_congr_left
  intro i hi
  apply valueAt_congr hf
  intro j hj
  apply h
  have hfield := Nat.mul_le_mul_right f.width (Nat.succ_le_of_lt (List.mem_range.mp hi))
  rw [Nat.succ_mul] at hfield
  omega

theorem ofScalar_decode_byte (h8 : f.width = 8) (hint : f.isInteger = true) (w : Word) :
    HostType.u8.ofScalar (f.decode w) = w.setWidth 8 := by
  cases f with
  | uint bits => rfl
  | int bits =>
    obtain rfl : bits = 8 := h8
    change ((w.setWidth 8).signExtend 64).setWidth 8 = w.setWidth 8
    apply BitVec.eq_of_getLsbD_eq
    intro j hj
    simp only [BitVec.getLsbD_setWidth, BitVec.getLsbD_signExtend]
    simp [hj]
    omega
  | fixed bits intBits => simp [isInteger] at hint
  | float32 => simp [isInteger] at hint
  | binary | ternary | bipolar => simp [width] at h8

theorem valueAt_byte (h8 : f.width = 8) (hint : f.isInteger = true) (bytes : Array UInt8) (i : ℕ) :
    f.valueAt .u8 bytes i = (Bytes.byteAt bytes i).toBitVec := by
  rw [valueAt, ofScalar_decode_byte h8 hint, h8]
  apply BitVec.eq_of_getLsbD_eq
  intro j hj
  change j < 8 at hj
  have hdiv : (i * 8 + j) / 8 = i := by omega
  have hmod : (i * 8 + j) % 8 = j := by omega
  rw [BitVec.getLsbD_setWidth, Bytes.getLsbD_field bytes _ (by decide), Bytes.bit, hdiv, hmod,
    decide_eq_true hj, Bool.true_and, Bool.true_and]
  rfl

theorem copy_eq_map_valueAt (h8 : f.width = 8) (hint : f.isInteger = true) {count : ℕ}
    (hcount : count ≤ bytes.size) {values : List t.Value}
    (hvalues : t.ofBytes? (bytes.extract 0 count) = some values) :
    values = (List.range count).map (f.valueAt t bytes) := by
  cases t with
  | u8 =>
    obtain rfl := Option.some.inj hvalues
    rw [Bytes.toList_extract hcount]
    have hmap : ((List.range count).map (Bytes.byteAt bytes)).map UInt8.toBitVec =
        (List.range count).map fun i => (Bytes.byteAt bytes i).toBitVec := List.map_map
    exact hmap.trans (List.map_congr_left fun i _ => (valueAt_byte h8 hint bytes i).symm)
  | u16 | u32 | u64 | i8 | i16 | i32 | i64 | f32 | f64 => cases hvalues

end Values

theorem fieldCount_eq (hf : f.validate = .ok ()) (hne : bytes ≠ #[]) (hp : padding ≤ 8 * bytes.size)
    (hd : f.width ∣ 8 * bytes.size - padding) :
    f.fieldCount bytes padding = .ok ((8 * bytes.size - padding) / f.width) := by
  have hempty : bytes.isEmpty = false := by simpa using hne
  have hmod := Nat.mod_eq_zero_of_dvd hd
  rw [Nat.mul_comm] at hp hmod
  have hfit : ¬ (bytes.size * 8 < padding ∨ (bytes.size * 8 - padding) % f.width ≠ 0) := by
    rintro (h | h)
    · omega
    · exact h hmod
  unfold fieldCount
  simp only [hempty, hf, hfit, bind, Except.bind, pure, Except.pure, if_false, Bool.false_eq_true,
    Nat.mul_comm 8]

theorem count_le_size (h8 : f.width = 8) (bytes : Array UInt8) (padding : ℕ) :
    (8 * bytes.size - padding) / f.width ≤ bytes.size := by
  rw [h8]
  omega

theorem runUnpack_chunks (t : HostType) (bytes : Array UInt8) (count size : ℕ) :
    f.runUnpack (t := t) bytes (.chunks count size) =
      (List.range count).map (f.valueAt t bytes) := by
  have hflat := flatten_pieces (n := max size 1) (by omega) (List.range count)
  rw [runUnpack, List.flatMap, ← List.map_flatten, hflat]

theorem unpackPlan_cases (ho : o.validate = .ok ()) {count : ℕ} (t : HostType)
    (hcount : f.fieldCount bytes padding = .ok count) :
    ∃ plan, f.unpackPlan t bytes padding o = .ok plan ∧
      (plan = .whole count ∨ plan = .chunks count o.roundedChunk ∨
        ∃ values, plan = .copy values ∧ f.width = 8 ∧ f.isInteger = true ∧
          t.ofBytes? (bytes.extract 0 count) = some values) := by
  unfold unpackPlan
  simp only [hcount, ho, bind, Except.bind]
  cases hcopy : if f.width = 8 ∧ f.isInteger = true then t.ofBytes? (bytes.extract 0 count)
    else none with
  | some values =>
    obtain ⟨⟨h8, hint⟩, hvalues⟩ := Option.ite_none_right_eq_some.mp hcopy
    exact ⟨.copy values, rfl, .inr (.inr ⟨values, rfl, h8, hint, hvalues⟩)⟩
  | none =>
    by_cases hcuts : o.cuts count = true
    · exact ⟨_, by simp [hcuts, pure, Except.pure], .inr (.inl rfl)⟩
    · exact ⟨_, by simp [hcuts, pure, Except.pure], .inl rfl⟩

theorem unpack_of_fieldCount (ho : o.validate = .ok ()) {count : ℕ} (t : HostType)
    (hcount : f.fieldCount bytes padding = .ok count) (hle : f.width = 8 → count ≤ bytes.size) :
    f.unpack t bytes padding o = .ok ((List.range count).map (f.valueAt t bytes)) := by
  obtain ⟨plan, hplan, hcases⟩ := unpackPlan_cases ho t hcount
  rw [unpack, hplan]
  apply congrArg Except.ok
  obtain rfl | rfl | ⟨values, rfl, h8, hint, hvalues⟩ := hcases
  · rfl
  · exact runUnpack_chunks t bytes count _
  · exact copy_eq_map_valueAt h8 hint (hle h8) hvalues

theorem unpackTensor_of_fieldCount (ho : o.validate = .ok ()) {count : ℕ} (t : HostType)
    (hcount : f.fieldCount bytes padding = .ok count) {shape : Shape}
    (hshape : shape.check count = .ok ()) :
    f.unpackTensor t bytes padding shape o = .ok ((List.range count).map (f.valueAt t bytes)) := by
  obtain ⟨hne, -, hprod, -⟩ := Shape.check_eq_ok_iff.mp hshape
  have hplan : f.tensorCount bytes padding shape o = .ok count := by
    simp [tensorCount, hcount, hshape, ho, bind, Except.bind, pure, Except.pure]
  unfold unpackTensor
  simp only [hplan, bind, Except.bind]
  split
  · have hdvd : shape.inner ∣ count := hprod ▸ Shape.inner_dvd_prod hne
    have htile := Shape.flatMap_range' (count / shape.inner) shape.inner
    rw [Nat.div_mul_cancel hdvd] at htile
    rw [← htile, List.map_flatMap]
    rfl
  · rfl

/--
Every way to unpack gives the same values: each is read from its own bits, the lowest first.
The bits behind the last field are not looked at.
-/
theorem unpack_layout (hf : f.validate = .ok ()) (hne : bytes ≠ #[])
    (hp : padding ≤ 8 * bytes.size) (hd : f.width ∣ 8 * bytes.size - padding) (t : HostType) :
    ∃ values : List t.Value,
      values.length = (8 * bytes.size - padding) / f.width ∧
      (∀ i (hi : i < values.length), values[i] = t.ofScalar (f.decode (BitVec.ofNat 64
        (∑ j ∈ Finset.range f.width, (Bytes.bit bytes (i * f.width + j)).toNat * 2 ^ j)))) ∧
      (∀ o : PackOptions, o.Usable →
        f.unpack t bytes padding o = .ok values ∧
        (∀ shape : Shape, shape ≠ [] → 0 ∉ shape → shape.prod = values.length →
          shape.prod < sizeLimit → f.unpackTensor t bytes padding shape o = .ok values) ∧
        f.runUnpack bytes (.chunks values.length o.roundedChunk) = values) ∧
      f.runUnpack bytes (.whole values.length) = values ∧
      (∀ copied, f.width = 8 → f.isInteger = true →
        t.ofBytes? (bytes.extract 0 values.length) = some copied →
        f.runUnpack bytes (.copy copied) = values) ∧
      ∀ other : Array UInt8, other.size = bytes.size →
        (∀ k < 8 * bytes.size - padding, Bytes.bit other k = Bytes.bit bytes k) →
        ∀ o : PackOptions, o.Usable → f.unpack t other padding o = .ok values := by
  have hcount := fieldCount_eq hf hne hp hd
  generalize hn : (8 * bytes.size - padding) / f.width = count at hcount
  have hlength : ((List.range count).map (f.valueAt t bytes)).length = count := by simp
  have hle (h8 : f.width = 8) : count ≤ bytes.size := hn ▸ count_le_size h8 bytes padding
  refine ⟨(List.range count).map (f.valueAt t bytes), hlength, ?_, ?_, ?_, ?_, ?_⟩
  · intro i hi
    rw [List.getElem_map, List.getElem_range, valueAt_eq_sum hf]
  · intro o ho
    rw [hlength]
    refine ⟨unpack_of_fieldCount ho.valid t hcount hle, ?_, runUnpack_chunks t bytes count _⟩
    intro shape hshape hzero hprod hsize
    have hcheck := Shape.check_eq_ok_iff.mpr ⟨hshape, hzero, hprod, hprod ▸ hsize⟩
    exact unpackTensor_of_fieldCount ho.valid t hcount hcheck
  · rw [hlength]
    rfl
  · intro copied h8 hint hcopied
    rw [hlength] at hcopied
    exact copy_eq_map_valueAt h8 hint (hle h8) hcopied
  · intro other hsize hbits o ho
    have hother : f.fieldCount other padding = .ok count := by
      rw [← hn, ← hsize]
      apply fieldCount_eq hf _ (hsize ▸ hp) (hsize ▸ hd)
      rintro rfl
      exact hne (Array.eq_empty_of_size_eq_zero hsize.symm)
    have htotal : count * f.width = 8 * bytes.size - padding := hn ▸ Nat.div_mul_cancel hd
    rw [unpack_of_fieldCount ho.valid t hother (hsize ▸ hle),
      map_valueAt_congr hf t (fun k hk => hbits k (htotal ▸ hk))]

theorem unpack_layout_long_padding :
    (int 5).validate = .ok () ∧ (#[0x5D, 0x84, 0x0F] : Array UInt8) ≠ #[] ∧ 14 ≤ 8 * 3 ∧
      5 ∣ 8 * 3 - 14 ∧ ∃ values : List HostType.i8.Value,
        values.length = 2 ∧ (int 5).unpack .i8 #[0x5D, 0x84, 0x0F] 14 = .ok values ∧
        (int 5).unpackTensor .i8 #[0x5D, 0x84, 0x0F] 14 [2, 1] ⟨0, 1⟩ = .ok values ∧
        (int 5).unpack .i8 #[0x5D, 0xFC, 0xFF] 14 = .ok values := by
  have ho : PackOptions.Usable ⟨0, 1⟩ := ⟨rfl, by decide⟩
  have hp : 14 ≤ 8 * (#[0x5D, 0x84, 0x0F] : Array UInt8).size := by decide
  obtain ⟨values, hlength, -, hall, -, -, hother⟩ :=
    unpack_layout (f := int 5) rfl (by decide) hp (by decide) .i8
  refine ⟨rfl, by decide, by decide, by decide, values, hlength, ?_, ?_, ?_⟩
  · exact (hall {} PackOptions.usable_default).1
  · exact (hall _ ho).2.1 [2, 1] (by decide) (by decide) hlength.symm (by decide)
  · exact hother #[0x5D, 0xFC, 0xFF] rfl (by decide) {} PackOptions.usable_default

end PackedStream.FieldFormat
