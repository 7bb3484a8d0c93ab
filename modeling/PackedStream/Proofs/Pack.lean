import PackedStream.Pack
import PackedStream.Proofs.BitBuffer
import PackedStream.Proofs.Blocks
import PackedStream.Proofs.Field
import PackedStream.Proofs.PackOptions

namespace PackedStream

structure Packed (width : ℕ) (fields : List Word) (bytes : Array UInt8) : Prop where
  size_eq : bytes.size = (fields.length * width + 7) / 8
  bit_eq : ∀ k, Bytes.bit bytes k = streamBit width fields k

namespace Packed

variable {width : ℕ} {xs ys : List Word} {a b : Array UInt8}

theorem unique (ha : Packed width xs a) (hb : Packed width xs b) : a = b := by
  apply Bytes.eq_of_bit_eq
  · rw [ha.size_eq, hb.size_eq]
  · intro k
    rw [ha.bit_eq, hb.bit_eq]

theorem append (hwidth : 0 < width) (ha : Packed width xs a) (hb : Packed width ys b)
    (hwhole : 8 ∣ xs.length * width) : Packed width (xs ++ ys) (a ++ b) := by
  have hsize : 8 * a.size = xs.length * width := by
    rw [ha.size_eq]
    omega
  constructor
  · rw [Array.size_append, hb.size_eq, List.length_append, Nat.add_mul]
    omega
  · intro k
    rw [Bytes.bit_append, hsize, ha.bit_eq, hb.bit_eq, streamBit_append hwidth]

theorem field_eq (hwidth : 0 < width) (hle : width ≤ 64) (ha : Packed width xs a)
    (hxs : ∀ v ∈ xs, v.toNat < 2 ^ width) {i : ℕ} (hi : i < xs.length) :
    Bytes.field a (i * width) width = xs[i] := by
  apply BitVec.eq_of_getLsbD_eq
  intro j _
  rw [Bytes.getLsbD_field a _ hle]
  by_cases hj : j < width
  · have hdiv : (i * width + j) / width = i := by
      rw [Nat.mul_comm, Nat.mul_add_div hwidth, Nat.div_eq_of_lt hj, Nat.add_zero]
    have hmod : (i * width + j) % width = j := by
      rw [Nat.mul_comm, Nat.mul_add_mod, Nat.mod_eq_of_lt hj]
    rw [decide_eq_true hj, Bool.true_and, ha.bit_eq, streamBit, hdiv, hmod,
      List.getElem?_eq_getElem hi, Option.getD_some]
  · rw [decide_eq_false hj, Bool.false_and,
      getLsbD_of_toNat_lt (hxs _ (List.getElem_mem hi)) (by omega)]

end Packed

namespace FieldFormat

variable {f : FieldFormat} {t : HostType}

@[simp]
theorem length_encodeAll (f : FieldFormat) (values : List t.Value) :
    (f.encodeAll values).length = values.length := List.length_map _

theorem encodeAll_append (f : FieldFormat) (xs ys : List t.Value) :
    f.encodeAll (xs ++ ys) = f.encodeAll xs ++ f.encodeAll ys := List.map_append

theorem lt_of_mem_encodeAll {values : List t.Value} {v : Word} (hv : v ∈ f.encodeAll values) :
    v.toNat < 2 ^ f.width := by
  obtain ⟨x, _, rfl⟩ := List.mem_map.mp hv
  exact encode_lt f _

theorem buffer_packed (hf : f.validate = .ok ()) (values : List t.Value) :
    Packed f.width (f.encodeAll values) (f.buffer values).bytes := by
  have hcapacity : values.length * f.width ≤ 8 * ((values.length * f.width + 7) / 8) := by omega
  constructor
  · rw [buffer, BitBuffer.size_writeAll, BitBuffer.size_zeros, length_encodeAll]
  · intro k
    rw [buffer, BitBuffer.bit_writeAll _ (width_pos hf) (by simpa using hcapacity) _ _
      (fun _ => lt_of_mem_encodeAll) (by simp)]
    simp

theorem buffer_append (hf : f.validate = .ok ()) {xs : List t.Value}
    (hwhole : 8 ∣ xs.length * f.width) (ys : List t.Value) :
    (f.buffer (xs ++ ys)).bytes = (f.buffer xs).bytes ++ (f.buffer ys).bytes := by
  apply (buffer_packed hf (xs ++ ys)).unique
  rw [encodeAll_append]
  apply (buffer_packed hf xs).append (width_pos hf) (buffer_packed hf ys)
  rwa [length_encodeAll]

theorem buffer_flatten (hf : f.validate = .ok ()) {cs : List (List t.Value)}
    (hwhole : ∀ c ∈ cs.dropLast, 8 ∣ c.length * f.width) :
    (f.buffer cs.flatten).bytes.toList = cs.flatMap fun c => (f.buffer c).bytes.toList := by
  induction cs with
  | nil =>
    have hsize : (f.buffer ([] : List t.Value)).bytes.size = 0 := by
      simp [(buffer_packed hf _).size_eq]
    rw [List.flatten_nil, List.flatMap_nil, Array.eq_empty_of_size_eq_zero hsize]
  | cons c cs ih =>
    rw [List.flatten_cons, List.flatMap_cons]
    cases cs with
    | nil => simp
    | cons d ds =>
      have hc : 8 ∣ c.length * f.width := hwhole c (by simp)
      rw [buffer_append hf hc, Array.toList_append, ih (fun e he => hwhole e (mem_dropLast_cons he))]

theorem packedLength_eq_size (hf : f.validate = .ok ()) (values : List t.Value) :
    (f.packedLength values.length).1 = (f.buffer values).bytes.size := by
  rw [(buffer_packed hf values).size_eq, length_encodeAll]
  rfl

theorem size_buffer_of_whole (hf : f.validate = .ok ()) {values : List t.Value} {n : ℕ}
    (h : values.length * f.width = 8 * n) : (f.buffer values).bytes.size = n := by
  rw [(buffer_packed hf values).size_eq, length_encodeAll]
  omega

theorem placeAll_buffers (hf : f.validate = .ok ()) {step : ℕ} (cs : List (List t.Value))
    (hstep : ∀ c ∈ cs.dropLast, c.length * f.width = 8 * step) :
    placeAll (Array.replicate (f.packedLength cs.flatten.length).1 0)
      (cs.mapIdx fun i c => (i * step, (f.buffer c).bytes)) = (f.buffer cs.flatten).bytes := by
  have hwhole : ∀ c ∈ cs.dropLast, 8 ∣ c.length * f.width :=
    fun c hc => hstep c hc ▸ Nat.dvd_mul_right 8 step
  have hconcat := buffer_flatten hf hwhole
  have hspace : (List.replicate (f.packedLength cs.flatten.length).1 (0 : UInt8)).length =
      (cs.map fun c => (f.buffer c).bytes.size).sum := by
    rw [List.length_replicate, packedLength_eq_size hf, ← Array.length_toList, hconcat,
      List.length_flatMap]
    rfl
  have htile := placeAll_append (fun c => (f.buffer c).bytes) step [] _ cs
    (fun c hc => size_buffer_of_whole hf (hstep c hc)) hspace
  simp only [List.nil_append, List.length_nil, Nat.zero_add, List.toArray_replicate] at htile
  rw [htile, ← hconcat]

theorem pieces_buffer (hf : f.validate = .ok ()) {step : ℕ} (cs : List (List t.Value))
    (hstep : ∀ c ∈ cs.dropLast, c.length * f.width = 8 * step)
    (hlast : ∀ c ∈ cs, 0 < c.length ∧ c.length * f.width ≤ 8 * step) :
    pieces step (f.buffer cs.flatten).bytes.toList =
      cs.map fun c => (f.buffer c).bytes.toList := by
  rw [buffer_flatten hf (fun c hc => hstep c hc ▸ Nat.dvd_mul_right 8 step), List.flatMap]
  apply pieces_flatten
  · intro bytes hbytes
    rw [← List.map_dropLast] at hbytes
    obtain ⟨c, hc, rfl⟩ := List.mem_map.mp hbytes
    exact size_buffer_of_whole hf (hstep c hc)
  · intro bytes hbytes
    obtain ⟨c, hc, rfl⟩ := List.mem_map.mp hbytes
    obtain ⟨hpos, hle⟩ := hlast c hc
    have hbits : 0 < c.length * f.width := Nat.mul_pos hpos (width_pos hf)
    rw [Array.length_toList, (buffer_packed hf c).size_eq, length_encodeAll]
    omega

theorem code_of_byte (h8 : f.width = 8) (hint : f.isInteger = true) (w : Word) :
    f.code (.int w) = w := by
  cases f with
  | uint bits | int bits => rfl
  | fixed bits intBits => simp [isInteger] at hint
  | float32 => simp [isInteger] at hint
  | binary | ternary | bipolar => simp [width] at h8

theorem bytes_packed (h8 : f.width = 8) (hint : f.isInteger = true) (vs : List (BitVec 8)) :
    Packed f.width (vs.map fun v => f.encode (.int (v.setWidth 64)))
      (vs.map UInt8.ofBitVec).toArray := by
  constructor
  · rw [List.size_toArray, List.length_map, List.length_map, h8]
    omega
  · intro k
    by_cases hk : k / 8 < vs.length
    · have hlow : k % 8 < 8 := Nat.mod_lt k (by decide)
      have hsize : k / 8 < (vs.map UInt8.ofBitVec).toArray.size := by simpa using hk
      have hlen : k / f.width < (vs.map fun v => f.encode (.int (v.setWidth 64))).length := by
        simpa [h8] using hk
      rw [streamBit_of_lt hlen, Bytes.bit, Bytes.byteAt_of_lt hsize]
      simp only [List.getElem_map, List.getElem_toArray, getLsbD_encode, h8,
        code_of_byte h8 hint, BitVec.getLsbD_setWidth]
      rw [decide_eq_true hlow, decide_eq_true (by omega), Bool.true_and, Bool.true_and]
      rfl
    · have hbytes : 8 * (vs.map UInt8.ofBitVec).toArray.size ≤ k := by
        rw [List.size_toArray, List.length_map]
        omega
      have hlen : (vs.map fun v => f.encode (.int (v.setWidth 64))).length * f.width ≤ k := by
        rw [List.length_map, h8]
        omega
      rw [streamBit_of_le (by omega) hlen, Bytes.bit_of_le hbytes]

theorem copy_packed (h8 : f.width = 8) (hint : f.isInteger = true) {values : List t.Value}
    {bytes : Array UInt8} (hbytes : t.toBytes? values = some bytes) :
    Packed f.width (f.encodeAll values) bytes := by
  cases t with
  | u8 =>
    obtain rfl := Option.some.inj hbytes
    exact bytes_packed h8 hint values
  | u16 | u32 | u64 | i8 | i16 | i32 | i64 | f32 | f64 => cases hbytes

section Copies

def Copies (f : FieldFormat) (t : HostType) : Prop :=
  f.width = 8 ∧ f.isInteger = true ∧ t = .u8

theorem copied_eq_none_iff {α : Type} {copied : Option α} (h : copied = none ↔ t ≠ .u8) :
    (if f.width = 8 ∧ f.isInteger = true then copied else none) = none ↔ ¬ f.Copies t := by
  unfold Copies
  by_cases hbyte : f.width = 8 ∧ f.isInteger = true
  · rw [if_pos hbyte, h]
    simp [hbyte]
  · rw [if_neg hbyte]
    tauto

theorem toBytes_eq_none_iff {values : List t.Value} :
    (if f.width = 8 ∧ f.isInteger = true then t.toBytes? values else none) = none ↔
      ¬ f.Copies t :=
  copied_eq_none_iff (by cases t <;> simp [HostType.toBytes?])

theorem ofBytes_eq_none_iff {bytes : Array UInt8} :
    (if f.width = 8 ∧ f.isInteger = true then t.ofBytes? bytes else none) = none ↔
      ¬ f.Copies t :=
  copied_eq_none_iff (by cases t <;> simp [HostType.ofBytes?])

end Copies

section Plans

variable {o : PackOptions}

theorem bits_of_full_chunk {size : ℕ} (h8 : 8 ∣ size) {values c : List t.Value}
    (hc : c ∈ (pieces size values).dropLast) :
    c.length * f.width = 8 * (size / 8 * f.width) := by
  rw [length_of_mem_dropLast_pieces hc, ← Nat.mul_assoc, Nat.mul_div_cancel' h8]

theorem bits_of_chunk_le {size : ℕ} (h8 : 8 ∣ size) {values c : List t.Value}
    (hc : c ∈ pieces size values) :
    0 < c.length ∧ c.length * f.width ≤ 8 * (size / 8 * f.width) := by
  obtain ⟨hpos, hle⟩ := length_of_mem_pieces hc
  refine ⟨hpos, ?_⟩
  rw [← Nat.mul_assoc, Nat.mul_div_cancel' h8]
  exact Nat.mul_le_mul_right f.width hle

theorem runPack_chunks (hf : f.validate = .ok ()) {size : ℕ} (hpos : 0 < size) (h8 : 8 ∣ size)
    (values : List t.Value) :
    f.runPack values (.chunks size) = (f.buffer values).bytes := by
  have htile := placeAll_buffers hf (pieces size values) fun _ => bits_of_full_chunk h8
  rwa [flatten_pieces hpos] at htile

theorem pieces_chunks (hf : f.validate = .ok ()) {size : ℕ} (hpos : 0 < size) (h8 : 8 ∣ size)
    (values : List t.Value) :
    pieces (size / 8 * f.width) (f.buffer values).bytes.toList =
      (f.chunkBlocks size values).map fun block => block.2.toList := by
  have hcut := pieces_buffer hf (pieces size values) (fun _ => bits_of_full_chunk h8)
    (fun _ => bits_of_chunk_le h8)
  rw [chunkBlocks, toList_mapIdx, ← hcut, flatten_pieces hpos]

theorem packPlan_cases (hf : f.validate = .ok ()) (ho : o.validate = .ok ())
    (values : List t.Value) :
    ∃ plan, f.packPlan values o = .ok plan ∧
      (plan = .whole ∨ plan = .chunks o.roundedChunk ∨
        ∃ bytes, plan = .copy bytes ∧ f.width = 8 ∧ f.isInteger = true ∧
          t.toBytes? values = some bytes) := by
  unfold packPlan
  simp only [hf, ho, bind, Except.bind]
  cases hcopy : if f.width = 8 ∧ f.isInteger = true then t.toBytes? values else none with
  | some bytes =>
    obtain ⟨⟨h8, hint⟩, hbytes⟩ := Option.ite_none_right_eq_some.mp hcopy
    exact ⟨.copy bytes, rfl, .inr (.inr ⟨bytes, rfl, h8, hint, hbytes⟩)⟩
  | none =>
    by_cases hcuts : o.cuts values.length = true
    · exact ⟨_, by simp [hcuts, pure, Except.pure], .inr (.inl rfl)⟩
    · exact ⟨_, by simp [hcuts, pure, Except.pure], .inl rfl⟩

theorem pack_eq_buffer (hf : f.validate = .ok ()) (ho : o.validate = .ok ())
    (values : List t.Value) :
    f.pack values o = .ok (f.buffer values).bytes := by
  obtain ⟨plan, hplan, hcases⟩ := packPlan_cases hf ho values
  rw [pack, hplan]
  apply congrArg Except.ok
  obtain rfl | rfl | ⟨bytes, rfl, h8, hint, hbytes⟩ := hcases
  · rfl
  · exact runPack_chunks hf o.roundedChunk_pos o.dvd_roundedChunk values
  · exact (copy_packed h8 hint hbytes).unique (buffer_packed hf values)

end Plans

/--
Every way to pack gives the same bytes: the fields of the values back to back, from the low end of
the first byte on, with zeros behind the last one. The bytes of chunks line up with the chunks.
-/
theorem pack_layout (hf : f.validate = .ok ()) (values : List t.Value) :
    ∃ bytes : Array UInt8,
      ((∀ o : PackOptions, o.Usable → f.pack values o = .ok bytes) ∧
        f.pack values = .ok bytes ∧
        ∀ {σ : Type} [Std.Iterator σ Id t.Value] (source : @Std.Iter σ t.Value),
          source.toList = values → f.packIter source = .ok bytes) ∧
      (bytes.size = (f.packedLength values.length).1 ∧
        bytes.size = (values.length * f.width + 7) / 8 ∧
        (∀ k < values.length * f.width, ∃ v, values[k / f.width]? = some v ∧
          Bytes.bit bytes k = (f.encode (t.toScalar v)).getLsbD (k % f.width)) ∧
        (∀ s : Scalar, (f.encode s).toNat < 2 ^ f.width) ∧
        ∀ k, values.length * f.width ≤ k → Bytes.bit bytes k = false) ∧
      f.runPack values .whole = bytes ∧
      (∀ copied, f.width = 8 → f.isInteger = true → t.toBytes? values = some copied →
        f.runPack values (.copy copied) = bytes) ∧
      ∀ o : PackOptions, o.Usable →
        f.runPack values (.chunks o.roundedChunk) = bytes ∧
        pieces (o.roundedChunk / 8 * f.width) bytes.toList =
          (f.chunkBlocks o.roundedChunk values).map fun block => block.2.toList := by
  have hbytes := buffer_packed hf values
  have hsize := hbytes.size_eq
  rw [length_encodeAll] at hsize
  refine ⟨(f.buffer values).bytes, ⟨?_, ?_, ?_⟩, ⟨?_, hsize, ?_, ?_, ?_⟩, rfl, ?_, ?_⟩
  · exact fun o ho => pack_eq_buffer hf ho.valid values
  · exact pack_eq_buffer hf PackOptions.usable_default.valid values
  · rintro σ _ source rfl
    exact pack_eq_buffer hf PackOptions.usable_default.valid source.toList
  · rw [packedLength_eq_size hf]
  · intro k hk
    have hlt : k / f.width < values.length := (Nat.div_lt_iff_lt_mul (width_pos hf)).mpr hk
    refine ⟨values[k / f.width], List.getElem?_eq_getElem hlt, ?_⟩
    rw [hbytes.bit_eq, streamBit_of_lt (by simpa using hlt)]
    simp only [encodeAll, List.getElem_map]
  · exact encode_lt f
  · intro k hk
    rw [hbytes.bit_eq, streamBit_of_le (width_pos hf) (by simpa using hk)]
  · intro copied h8 hint hcopied
    exact (copy_packed h8 hint hcopied).unique hbytes
  · intro o _
    exact ⟨runPack_chunks hf o.roundedChunk_pos o.dvd_roundedChunk values,
      pieces_chunks hf o.roundedChunk_pos o.dvd_roundedChunk values⟩

theorem pack_layout_two_chunks :
    (int 5).validate = .ok () ∧ PackOptions.Usable ⟨0, 1⟩ ∧
      ∃ bytes, (int 5).pack (t := .i8) [-3, 2, 1, -1, 0, 5, -16, 15, -2] ⟨0, 1⟩ = .ok bytes ∧
        bytes.size = 6 ∧ Bytes.bit bytes 40 = false ∧ Bytes.bit bytes 41 = true ∧
        ∀ k, 45 ≤ k → Bytes.bit bytes k = false := by
  have ho : PackOptions.Usable ⟨0, 1⟩ := ⟨rfl, by decide⟩
  obtain ⟨bytes, ⟨hpack, -⟩, ⟨-, hsize, hbit, -, hzero⟩, -⟩ :=
    pack_layout (f := int 5) (t := .i8) rfl [-3, 2, 1, -1, 0, 5, -16, 15, -2]
  refine ⟨rfl, ho, bytes, hpack _ ho, hsize, ?_, ?_, hzero⟩
  · obtain ⟨v, hv, hbit⟩ := hbit 40 (by decide)
    obtain rfl := Option.some.inj hv
    exact hbit
  · obtain ⟨v, hv, hbit⟩ := hbit 41 (by decide)
    obtain rfl := Option.some.inj hv
    exact hbit

end FieldFormat

end PackedStream
