import PackedStream.Proofs.Integers
import PackedStream.Proofs.Pack
import PackedStream.Proofs.Unpack

namespace PackedStream.FieldFormat

variable {f : FieldFormat} {t u : HostType} {o o' : PackOptions}

theorem bits_of_packedLength (f : FieldFormat) (count : ℕ) :
    8 * (f.packedLength count).1 - (f.packedLength count).2 = count * f.width ∧
      (f.packedLength count).2 ≤ 8 * (f.packedLength count).1 := by
  simp only [packedLength]
  omega

theorem unpack_pack (hf : f.validate = .ok ()) (ho : o.Usable) (ho' : o'.Usable)
    {values : List t.Value} (hne : values ≠ []) (u : HostType) :
    ∃ bytes, f.pack values o = .ok bytes ∧
      f.unpack u bytes (f.packedLength values.length).2 o' =
        .ok (values.map fun v => u.ofScalar (f.decode (f.encode (t.toScalar v)))) := by
  refine ⟨(f.buffer values).bytes, pack_eq_buffer hf ho.valid values, ?_⟩
  have hpacked := buffer_packed hf values
  have hsize := packedLength_eq_size hf values
  obtain ⟨hbits, hpadding⟩ := bits_of_packedLength f values.length
  rw [hsize] at hbits hpadding
  have hpos : 0 < values.length * f.width :=
    Nat.mul_pos (List.length_pos_iff.mpr hne) (width_pos hf)
  have hnonempty : (f.buffer values).bytes ≠ #[] := by
    intro h
    rw [h, Array.size_empty] at hbits
    omega
  have hcount := fieldCount_eq hf hnonempty hpadding
    (hbits ▸ Nat.dvd_mul_left f.width values.length)
  rw [hbits, Nat.mul_div_cancel _ (width_pos hf)] at hcount
  rw [unpack_of_fieldCount ho'.valid u hcount]
  · apply congrArg Except.ok
    apply List.ext_getElem
    · simp
    · intro i hi hi'
      have hlt : i < values.length := by simpa using hi'
      rw [List.getElem_map, List.getElem_map, List.getElem_range, valueAt,
        hpacked.field_eq (width_pos hf) (width_le hf) (fun _ => lt_of_mem_encodeAll)
          (by simpa using hlt)]
      simp only [encodeAll, List.getElem_map]
  · intro h8
    rw [hpacked.size_eq, length_encodeAll, h8]
    omega

/--
An integer comes back as the one that its field holds and that is congruent to it, cut to the
host type; one that the field holds comes back as it is. A bipolar field keeps the sign alone.
-/
theorem unpack_pack_integers (hf : f.validate = .ok ()) (hint : f.isInteger = true)
    (ht : t.isInteger = true) (ho : o.Usable) (ho' : o'.Usable) {values : List t.Value}
    (hne : values ≠ []) :
    ∃ (bytes : Array UInt8) (back : List t.Value),
      f.pack values o = .ok bytes ∧
      f.unpack t bytes (f.packedLength values.length).2 o' = .ok back ∧
      back.length = values.length ∧
      ∀ i (hi : i < values.length) (hi' : i < back.length),
        (f ≠ bipolar →
          (∃! m : ℤ, m ≡ t.toInt values[i] [ZMOD 2 ^ f.width] ∧ f.Holds m) ∧
          (∀ m : ℤ, m ≡ t.toInt values[i] [ZMOD 2 ^ f.width] → f.Holds m →
            back[i] = BitVec.ofInt t.width m) ∧
          (f.Holds (t.toInt values[i]) → back[i] = values[i])) ∧
        (f = bipolar →
          back[i] = BitVec.ofInt t.width (if 0 < t.toInt values[i] then 1 else -1)) := by
  obtain ⟨bytes, hpack, hunpack⟩ := unpack_pack hf ho ho' hne t
  refine ⟨bytes, _, hpack, hunpack, List.length_map _, ?_⟩
  intro i hi hi'
  rw [List.getElem_map]
  constructor
  · intro hbi
    have hpos := width_pos hf
    rw [ofScalar_decode_encode hf hint hbi ht ht]
    generalize hv : t.toInt values[i] = v
    have unique (m : ℤ) (hm : m ≡ v [ZMOD 2 ^ f.width]) (hholds : f.Holds m) : m = f.wrap v :=
      hholds.eq_of_modEq hpos (holds_wrap hpos v) (hm.trans (f.wrap_modEq v).symm)
    refine ⟨⟨f.wrap v, ⟨f.wrap_modEq v, holds_wrap hpos v⟩, fun m hm => unique m hm.1 hm.2⟩, ?_, ?_⟩
    · intro m hm hholds
      rw [unique m hm hholds]
    · intro hholds
      rw [wrap_eq_self hpos hholds, ← hv]
      exact t.ofInt_toInt values[i]
  · rintro rfl
    rw [ofScalar_decode_encode_bipolar ht, HostType.isPositive_toScalar ht]
    simp

theorem unpack_pack_out_of_range :
    (int 3).validate = .ok () ∧ PackOptions.Usable ⟨0, 1⟩ ∧
      ∃ bytes, (int 3).pack (t := .i16) [5, -2] ⟨0, 1⟩ = .ok bytes ∧
        (int 3).unpack .i16 bytes 2 = .ok [-3, -2] := by
  have ho : PackOptions.Usable ⟨0, 1⟩ := ⟨rfl, by decide⟩
  have hne : ([5, -2] : List HostType.i16.Value) ≠ [] := by decide
  obtain ⟨bytes, back, hpack, hunpack, hlength, hback⟩ :=
    unpack_pack_integers (f := int 3) rfl rfl rfl ho PackOptions.usable_default hne
  obtain ⟨a, b, rfl⟩ := List.length_eq_two.mp hlength
  have hfirst : a = -3 :=
    (((hback 0 (by decide) (by simp)).1 (by decide)).2.1 (-3) (by decide) (by decide)).trans
      (by decide)
  have hsecond : b = -2 := ((hback 1 (by decide) (by simp)).1 (by decide)).2.2 (by decide)
  rw [hfirst, hsecond] at hunpack
  exact ⟨rfl, ho, bytes, hpack, hunpack⟩

end PackedStream.FieldFormat
