import PackedStream.Proofs.Integers
import PackedStream.Proofs.Pack
import PackedStream.Proofs.Scalar
import PackedStream.Proofs.Unpack.Answers

namespace PackedStream

namespace HostType

def signed : HostType → Bool
  | u8 | u16 | u32 | u64 => false
  | i8 | i16 | i32 | i64 | f32 | f64 => true

variable {t : HostType}

theorem toInt_of_signed (ht : t.isInteger = true) (hs : t.signed = true) (v : t.Value) :
    t.toInt v = BitVec.toInt v := by
  cases t with
  | i8 | i16 | i32 | i64 => rfl
  | u8 | u16 | u32 | u64 => cases hs
  | f32 | f64 => cases ht

theorem toInt_of_unsigned (hs : t.signed = false) (v : t.Value) :
    t.toInt v = BitVec.toNat v := by
  cases t with
  | u8 | u16 | u32 | u64 => rfl
  | i8 | i16 | i32 | i64 | f32 | f64 => cases hs

end HostType

namespace FieldFormat

variable {f : FieldFormat}

def native (f : FieldFormat) (field : Word) : f.hostType.Value :=
  f.hostType.ofScalar (f.decode field)

theorem valueAt_hostType (f : FieldFormat) (bytes : Array UInt8) (i : ℕ) :
    f.valueAt f.hostType bytes i = f.native (Bytes.field bytes (i * f.width) f.width) := rfl

section Integers

theorem isInteger_hostType (hint : f.isInteger = true) : f.hostType.isInteger = true := by
  cases f with
  | uint bits | int bits =>
    simp only [hostType]
    split_ifs <;> rfl
  | fixed | float32 => cases hint
  | binary | ternary | bipolar => rfl

theorem signed_hostType (hint : f.isInteger = true) : f.hostType.signed = f.signed := by
  cases f with
  | uint bits | int bits =>
    simp only [hostType]
    split_ifs <;> rfl
  | fixed | float32 => cases hint
  | binary | ternary | bipolar => rfl

theorem width_le_hostType (hf : f.validate = .ok ()) (hint : f.isInteger = true) :
    f.width ≤ f.hostType.width := by
  have hle := width_le hf
  cases f with
  | uint bits | int bits =>
    simp only [hostType]
    split_ifs <;> assumption
  | fixed | float32 => cases hint
  | binary | ternary | bipolar => decide

theorem setWidth_setWidth_of_lt {field : Word} {n : ℕ} (h : field.toNat < 2 ^ n) :
    (field.setWidth n).setWidth 64 = field := by
  apply BitVec.eq_of_toNat_eq
  rw [BitVec.toNat_setWidth, BitVec.toNat_setWidth, Nat.mod_eq_of_lt h, Nat.mod_eq_of_lt field.isLt]

theorem setWidth_signExtend {m n k : ℕ} (h : m ≤ n) (w : BitVec k) :
    (w.signExtend n).setWidth m = w.signExtend m := setWidth_ofInt h w.toInt

theorem ofScalar_decode (hint : f.isInteger = true) (hne : f ≠ bipolar) {t : HostType}
    (ht : t.isInteger = true) (field : Word) :
    t.ofScalar (f.decode field) =
      if f.signed = true then (field.setWidth f.width).signExtend t.width
      else field.setWidth t.width := by
  rw [decode_integer hint hne]
  split
  · rw [HostType.ofScalar_int ht, setWidth_signExtend t.width_le]
  · rw [HostType.ofScalar_uint ht]

theorem toInt_native (hf : f.validate = .ok ()) (hint : f.isInteger = true) {field : Word}
    (hfield : field.toNat < 2 ^ f.width) :
    (f.hostType.toInt (f.native field) : ℚ) = (f.decode field).value := by
  have hhost := isInteger_hostType hint
  have hwidth := width_le_hostType hf hint
  by_cases hbi : f = bipolar
  · subst hbi
    rw [native, decode]
    cases field.getLsbD 0 <;> rfl
  · rw [native, ofScalar_decode hint hbi hhost, decode_integer hint hbi]
    split
    case isTrue hs =>
      rw [HostType.toInt_of_signed hhost ((signed_hostType hint).trans hs), Scalar.value_int,
        BitVec.toInt_signExtend_of_le hwidth, BitVec.toInt_signExtend_of_le (width_le hf)]
    case isFalse hs =>
      have hsmall := lt_of_lt_of_le hfield (Nat.pow_le_pow_right (by decide) hwidth)
      rw [HostType.toInt_of_unsigned ((signed_hostType hint).trans (Bool.not_eq_true _ ▸ hs)),
        Scalar.value_uint, BitVec.toNat_setWidth, Nat.mod_eq_of_lt hsmall, Int.cast_natCast]

theorem eq_zero_or_eq_one {field : Word} (h : field.toNat < 2) : field = 0 ∨ field = 1 := by
  obtain h | h : field.toNat = 0 ∨ field.toNat = 1 := by omega
  · exact .inl (BitVec.eq_of_toNat_eq h)
  · exact .inr (BitVec.eq_of_toNat_eq h)

theorem encode_native (hf : f.validate = .ok ()) (hint : f.isInteger = true) {field : Word}
    (hfield : field.toNat < 2 ^ f.width) :
    f.encode (f.hostType.toScalar (f.native field)) = field := by
  have hhost := isInteger_hostType hint
  have hwidth := width_le_hostType hf hint
  by_cases hbi : f = bipolar
  · subst hbi
    obtain rfl | rfl := eq_zero_or_eq_one hfield <;> rfl
  · rw [encode_integer hint hbi (HostType.toScalar_integer hhost _), setWidth_ofInt (width_le hf),
      ← setWidth_ofInt hwidth, HostType.ofInt_toInt, native, ofScalar_decode hint hbi hhost]
    split
    · rw [setWidth_signExtend hwidth, BitVec.signExtend_eq, setWidth_setWidth_of_lt hfield]
    · rw [BitVec.setWidth_setWidth_of_le _ hwidth, setWidth_setWidth_of_lt hfield]

end Integers

section Streams

variable {bytes : Array UInt8} {padding : ℕ}

theorem fieldCount_eq_ok_iff (hf : f.validate = .ok ()) (hne : bytes ≠ #[]) :
    (∃ count, f.fieldCount bytes padding = .ok count) ↔
      padding ≤ 8 * bytes.size ∧ f.width ∣ 8 * bytes.size - padding := by
  constructor
  · rintro ⟨count, h⟩
    cases fieldCount_eq_iff.mp h with
    | fields _ _ hp hd => exact ⟨hp, hd⟩
  · rintro ⟨hp, hd⟩
    exact ⟨_, fieldCount_eq hf hne hp hd⟩

theorem unpackHost_eq (hf : f.validate = .ok ()) (hne : bytes ≠ #[]) (hp : padding ≤ 8 * bytes.size)
    (hd : f.width ∣ 8 * bytes.size - padding) :
    f.unpackHost bytes padding = .ok ⟨f.hostType,
      (List.range ((8 * bytes.size - padding) / f.width)).map (f.valueAt f.hostType bytes)⟩ := by
  rw [unpackHost, unpack_of_fieldCount rfl f.hostType (fieldCount_eq hf hne hp hd)
    fun h8 => count_le_size h8 bytes padding]
  rfl

theorem unpackHost_eq_ok_iff (hf : f.validate = .ok ()) (hne : bytes ≠ #[]) :
    (∃ vs, f.unpackHost bytes padding = .ok vs) ↔
      padding ≤ 8 * bytes.size ∧ f.width ∣ 8 * bytes.size - padding := by
  constructor
  · rintro ⟨vs, h⟩
    rw [← fieldCount_eq_ok_iff hf hne]
    cases hcount : f.fieldCount bytes padding with
    | ok count => exact ⟨count, rfl⟩
    | error e =>
      rw [unpackHost, unpack, unpackPlan, hcount] at h
      cases h
  · rintro ⟨hp, hd⟩
    exact ⟨_, unpackHost_eq hf hne hp hd⟩

theorem streamBit_fields (hpos : 0 < f.width) (hle : f.width ≤ 64) (bytes : Array UInt8)
    (count k : ℕ) :
    streamBit f.width
        ((List.range count).map fun i => Bytes.field bytes (i * f.width) f.width) k =
      (decide (k < count * f.width) && Bytes.bit bytes k) := by
  by_cases hk : k < count * f.width
  · have hlt : k / f.width < count := (Nat.div_lt_iff_lt_mul hpos).mpr hk
    rw [streamBit_of_lt (by simpa using hlt), List.getElem_map, List.getElem_range,
      Bytes.getLsbD_field bytes _ hle, decide_eq_true (Nat.mod_lt k hpos), decide_eq_true hk,
      Nat.div_add_mod']
  · rw [streamBit_of_le hpos (by simpa using hk), decide_eq_false hk, Bool.false_and]

theorem encodeAll_native (hf : f.validate = .ok ()) (hint : f.isInteger = true)
    (bytes : Array UInt8) (count : ℕ) :
    f.encodeAll ((List.range count).map (f.valueAt f.hostType bytes)) =
      (List.range count).map fun i => Bytes.field bytes (i * f.width) f.width := by
  rw [encodeAll, List.map_map]
  apply List.map_congr_left
  intro i _
  rw [Function.comp_apply, valueAt_hostType]
  exact encode_native hf hint (Bytes.field_lt bytes _ _)

/--
What unpacks can be packed again: the bits in front of the padding come back, with zeros behind
them up to a whole byte. No field is narrowed on the way.
-/
theorem pack_unpackHost (hf : f.validate = .ok ()) (hint : f.isInteger = true)
    (hne : bytes ≠ #[]) (padding : ℕ) :
    ((∃ vs, f.unpackHost bytes padding = .ok vs) ↔
      padding ≤ 8 * bytes.size ∧ f.width ∣ 8 * bytes.size - padding) ∧
    (∀ vs, f.unpackHost bytes padding = .ok vs →
      vs.type = f.hostType ∧
      ∃ packed : Array UInt8,
        (∀ o : PackOptions, o.Usable → f.pack vs.values o = .ok packed) ∧
        f.pack vs.values = .ok packed ∧
        packed.size = (8 * bytes.size - padding + 7) / 8 ∧
        (∀ k, Bytes.bit packed k =
          (decide (k < 8 * bytes.size - padding) && Bytes.bit bytes k)) ∧
        (padding = 8 * bytes.size → packed = #[]) ∧
        (padding < 8 → (∀ k, 8 * bytes.size - padding ≤ k → Bytes.bit bytes k = false) →
          packed = bytes)) ∧
    f.width ≤ f.hostType.width ∧
    ∀ field : Word, field.toNat < 2 ^ f.width →
      (f.hostType.toInt (f.native field) : ℚ) = (f.decode field).value ∧
      f.encode (f.hostType.toScalar (f.native field)) = field := by
  refine ⟨unpackHost_eq_ok_iff hf hne, ?_, width_le_hostType hf hint, fun field hfield =>
    ⟨toInt_native hf hint hfield, encode_native hf hint hfield⟩⟩
  intro vs hvs
  obtain ⟨hp, hd⟩ := (unpackHost_eq_ok_iff hf hne).mp ⟨vs, hvs⟩
  rw [unpackHost_eq hf hne hp hd] at hvs
  obtain rfl := Except.ok.inj hvs
  generalize hcount : (8 * bytes.size - padding) / f.width = count
  have htotal : count * f.width = 8 * bytes.size - padding := hcount ▸ Nat.div_mul_cancel hd
  have hpacked := buffer_packed hf ((List.range count).map (f.valueAt f.hostType bytes))
  have hsize := hpacked.size_eq
  rw [length_encodeAll, List.length_map, List.length_range, htotal] at hsize
  have hbit (k : ℕ) := hpacked.bit_eq k
  simp only [encodeAll_native hf hint, streamBit_fields (width_pos hf) (width_le hf), htotal] at hbit
  refine ⟨rfl, (f.buffer ((List.range count).map (f.valueAt f.hostType bytes))).bytes,
    fun o ho => pack_eq_buffer hf ho.valid _,
    pack_eq_buffer hf PackOptions.usable_default.valid _,
    hsize, hbit, ?_, ?_⟩
  · rintro rfl
    apply Array.eq_empty_of_size_eq_zero
    omega
  · intro hlast hzero
    apply Bytes.eq_of_bit_eq
    · omega
    · intro k
      rw [hbit]
      by_cases hk : k < 8 * bytes.size - padding
      · rw [decide_eq_true hk, Bool.true_and]
      · rw [decide_eq_false hk, Bool.false_and, hzero k (by omega)]

theorem pack_unpackHost_long_padding :
    (int 5).validate = .ok () ∧ (int 5).isInteger = true ∧
      (#[0x5D, 0xFC, 0xFF] : Array UInt8) ≠ #[] ∧
      ∃ vs, (int 5).unpackHost #[0x5D, 0xFC, 0xFF] 14 = .ok vs ∧ vs.type = .i8 ∧
        (int 5).pack vs.values = .ok #[0x5D, 0x00] := by
  have hne : (#[0x5D, 0xFC, 0xFF] : Array UInt8) ≠ #[] := by decide
  obtain ⟨haccepted, hvs, -⟩ := pack_unpackHost (f := int 5) rfl rfl hne 14
  obtain ⟨vs, h⟩ := haccepted.mpr (by decide)
  obtain ⟨htype, packed, -, hpack, hsize, hbit, -⟩ := hvs vs h
  refine ⟨rfl, rfl, hne, vs, h, htype, ?_⟩
  have hbytes : packed = #[0x5D, 0x00] := by
    apply Bytes.eq_of_bit_eq hsize
    intro k
    rw [hbit]
    have hbits : ∀ k < 16, (decide (k < 10) && Bytes.bit #[0x5D, 0xFC, 0xFF] k) =
        Bytes.bit #[0x5D, 0x00] k := by decide
    by_cases hk : k < 16
    · exact hbits k hk
    · have hlate : ¬ k < 8 * (#[0x5D, 0xFC, 0xFF] : Array UInt8).size - 14 := by
        simp only [List.size_toArray, List.length_cons, List.length_nil]
        omega
      rw [decide_eq_false hlate, Bool.false_and, Bytes.bit_of_le (not_lt.mp hk)]
  rw [hpack, hbytes]

end Streams

end FieldFormat

end PackedStream
