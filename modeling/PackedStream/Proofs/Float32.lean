import PackedStream.Proofs.FloatFormat.Convert
import PackedStream.Proofs.Native
import PackedStream.Proofs.RoundTrip

namespace PackedStream

open FloatFormat (binary32 binary64)

namespace Bytes

def patterns (bytes : Array UInt8) : List (BitVec 32) :=
  (List.range (bytes.size / 4)).map fun i => BitVec.ofNat 32 (number bytes (4 * i) 4)

variable {bytes : Array UInt8}

theorem packed_littleEndian (vs : List (BitVec 32)) :
    Packed 32 (vs.map (BitVec.setWidth 64)) (vs.flatMap (littleEndian 4)).toArray := by
  induction vs with
  | nil => exact ⟨rfl, fun k => by simp [bit, byteAt]⟩
  | cons v vs ih =>
    have hfirst : Packed 32 [v.setWidth 64] (littleEndian 4 v).toArray := by
      refine ⟨by simp [littleEndian], fun k => ?_⟩
      rw [bit_littleEndian, streamBit_cons (by decide), streamBit_nil, BitVec.getLsbD_setWidth]
      by_cases hk : k < 32
      · have hword : k < 64 := by omega
        simp [hk, hword]
      · simp [hk]
    have hboth := hfirst.append (by decide) ih (by simp)
    rwa [List.append_toArray] at hboth

theorem packed_patterns (h : 4 ∣ bytes.size) :
    Packed 32 ((patterns bytes).map (BitVec.setWidth 64)) bytes := by
  have hlength : ((patterns bytes).map (BitVec.setWidth 64)).length = bytes.size / 4 := by
    simp [patterns]
  constructor
  · rw [hlength]
    omega
  · intro k
    by_cases hk : k < 8 * bytes.size
    · have hplace : k / 32 < ((patterns bytes).map (BitVec.setWidth 64)).length := by omega
      have hbit : k % 32 < 32 := Nat.mod_lt k (by decide)
      have hword : k % 32 < 64 := by omega
      have hpos : 8 * (4 * (k / 32)) + k % 32 = k := by omega
      have hget := testBit_number bytes (4 * (k / 32)) 4 (k % 32)
      rw [hpos, decide_eq_true hbit, Bool.true_and] at hget
      rw [streamBit_of_lt hplace, ← hget, List.getElem_map, BitVec.getLsbD_setWidth,
        decide_eq_true hword, Bool.true_and]
      simp only [patterns, List.getElem_map, List.getElem_range, BitVec.getLsbD_ofNat,
        decide_eq_true hbit, Bool.true_and]
    · rw [bit_of_le (by omega), streamBit_of_le (by decide) (by omega)]

theorem flatMap_patterns (h : 4 ∣ bytes.size) :
    ((patterns bytes).flatMap (littleEndian 4)).toArray = bytes :=
  (packed_littleEndian (patterns bytes)).unique (packed_patterns h)

theorem patterns_ne_nil (h : 4 ∣ bytes.size) (hne : bytes ≠ #[]) : patterns bytes ≠ [] := by
  intro hnil
  apply hne
  rw [← flatMap_patterns h, hnil]
  rfl

end Bytes

namespace FieldFormat

open Bytes (littleEndian patterns)

section Patterns

variable {values : List HostType.f32.Value} (hvalues : ∀ v ∈ values, binary32.isNaN v = false)

theorem encode_pattern {v : BitVec 32} (hv : binary32.isNaN v = false) :
    float32.encode (HostType.f32.toScalar v) = v.setWidth 64 := by
  rw [encode_eq_setWidth]
  change ((((binary64.convert binary32 (binary32.convert binary64 v : BitVec 64) : BitVec 32).setWidth
    64).setWidth 32).setWidth 64) = _
  rw [FloatFormat.convert_binary32_binary64 hv,
    BitVec.setWidth_setWidth_of_le v (by decide : 32 ≤ 64), BitVec.setWidth_eq]

theorem ofScalar_decode_pattern {v : BitVec 32} (hv : binary32.isNaN v = false) :
    HostType.f32.ofScalar (float32.decode (v.setWidth 64)) = v := by
  change (binary64.convert binary32 (binary32.convert binary64 ((v.setWidth 64).setWidth 32) :
    BitVec 64) : BitVec 32) = v
  rw [BitVec.setWidth_setWidth_of_le v (by decide : 32 ≤ 64), BitVec.setWidth_eq,
    FloatFormat.convert_binary32_binary64 hv]

include hvalues in
theorem encodeAll_patterns :
    float32.encodeAll (t := .f32) values = values.map (BitVec.setWidth 64) :=
  List.map_congr_left fun v hv => encode_pattern (hvalues v hv)

variable {o : PackOptions} (ho : o.Usable)

include hvalues ho in
theorem pack_patterns :
    float32.pack (t := .f32) values o = .ok (values.flatMap (littleEndian 4)).toArray := by
  have hbuffer := buffer_packed (f := float32) rfl (t := .f32) values
  rw [encodeAll_patterns hvalues] at hbuffer
  rw [pack_eq_buffer rfl ho.valid]
  exact congrArg Except.ok (hbuffer.unique (Bytes.packed_littleEndian values))

include hvalues ho in
theorem unpack_patterns (hne : values ≠ []) :
    float32.unpack .f32 (values.flatMap (littleEndian 4)).toArray 0 o = .ok values := by
  obtain ⟨bytes, hpack, hunpack⟩ := unpack_pack (f := float32) (t := .f32) rfl
    PackOptions.usable_default ho hne .f32
  have hpadding : (float32.packedLength values.length).2 = 0 := by
    simp only [packedLength, width]
    omega
  rw [pack_patterns hvalues PackOptions.usable_default] at hpack
  obtain rfl := Except.ok.inj hpack
  rw [hpadding] at hunpack
  refine hunpack.trans (congrArg Except.ok ?_)
  refine (List.map_congr_left fun v hv => ?_).trans (List.map_id' values)
  have hv := hvalues v hv
  exact (congrArg (fun field => HostType.f32.ofScalar (float32.decode field))
    (encode_pattern hv)).trans (ofScalar_decode_pattern hv)

end Patterns

/--
A stream of binary32 numbers is the bytes of their patterns and gives these patterns back, zeros of
both signs, subnormal numbers and infinities included. The other way round, bytes that make whole
patterns come back from what they unpack to; but no bytes at all are refused.
-/
theorem float32_stream :
    (∀ {values : List HostType.f32.Value}, values ≠ [] →
      (∀ v ∈ values, binary32.isNaN v = false) →
      ∀ {o o' : PackOptions}, o.Usable → o'.Usable →
        float32.pack values o = .ok (values.flatMap (littleEndian 4)).toArray ∧
        float32.unpack .f32 (values.flatMap (littleEndian 4)).toArray 0 o' = .ok values ∧
        float32.unpackHost (values.flatMap (littleEndian 4)).toArray 0 = .ok ⟨.f32, values⟩) ∧
    (∀ {bytes : Array UInt8}, bytes ≠ #[] → 4 ∣ bytes.size →
      (∀ v ∈ patterns bytes, binary32.isNaN v = false) →
      ∀ {o o' : PackOptions}, o.Usable → o'.Usable →
        float32.unpack .f32 bytes 0 o = .ok (patterns bytes) ∧
        float32.pack (t := .f32) (patterns bytes) o' = .ok bytes) ∧
    ∀ o : PackOptions, float32.unpack .f32 #[] 0 o = .error .emptyInput := by
  refine ⟨?_, ?_, fun o => rfl⟩
  · intro values hne hvalues o o' ho ho'
    refine ⟨pack_patterns hvalues ho, unpack_patterns hvalues ho' hne, ?_⟩
    have hunpack := unpack_patterns hvalues PackOptions.usable_default hne
    exact congrArg (Except.map fun values => HostValues.mk .f32 values) hunpack
  · intro bytes hne hsize hvalues o o' ho ho'
    have hunpack := unpack_patterns hvalues ho (Bytes.patterns_ne_nil hsize hne)
    have hpack := pack_patterns hvalues ho'
    have hsame := Bytes.flatMap_patterns hsize
    exact ⟨(congrArg (float32.unpack .f32 · 0 o) hsame).symm.trans hunpack,
      hpack.trans (congrArg Except.ok hsame)⟩

theorem float32_stream_edges :
    ([0x80000000, 1, 0x7F800000, 0xFF7FFFFF] : List HostType.f32.Value) ≠ [] ∧
      (∀ v ∈ ([0x80000000, 1, 0x7F800000, 0xFF7FFFFF] : List HostType.f32.Value),
        binary32.isNaN v = false) ∧
      PackOptions.Usable ⟨0, 1⟩ ∧
      float32.pack (t := .f32) [0x80000000, 1, 0x7F800000, 0xFF7FFFFF] ⟨0, 1⟩ =
        .ok #[0, 0, 0, 0x80, 1, 0, 0, 0, 0, 0, 0x80, 0x7F, 0xFF, 0xFF, 0x7F, 0xFF] ∧
      float32.unpack .f32 #[0, 0, 0, 0x80, 1, 0, 0, 0] 0 = .ok [0x80000000, 1] ∧
      float32.pack (t := .f32) [0x80000000, 1] = .ok #[0, 0, 0, 0x80, 1, 0, 0, 0] := by
  have hne : ([0x80000000, 1, 0x7F800000, 0xFF7FFFFF] : List HostType.f32.Value) ≠ [] :=
    List.cons_ne_nil _ _
  have hvalues : ∀ v ∈ ([0x80000000, 1, 0x7F800000, 0xFF7FFFFF] : List HostType.f32.Value),
      binary32.isNaN v = false := by
    simp only [List.forall_mem_cons]
    exact ⟨rfl, rfl, rfl, rfl, List.forall_mem_nil _⟩
  have hpatterns : patterns #[0, 0, 0, 0x80, 1, 0, 0, 0] = [0x80000000, 1] := rfl
  have hnumbers : ∀ v ∈ patterns #[0, 0, 0, 0x80, 1, 0, 0, 0], binary32.isNaN v = false := by
    rw [hpatterns]
    simp only [List.forall_mem_cons]
    exact ⟨rfl, rfl, List.forall_mem_nil _⟩
  have ho : PackOptions.Usable ⟨0, 1⟩ := ⟨rfl, by decide⟩
  have hforth := (float32_stream.1 hne hvalues ho ho).1
  have hbytes : (#[0, 0, 0, 0x80, 1, 0, 0, 0] : Array UInt8) ≠ #[] := by decide
  obtain ⟨hunpack, hpack⟩ := float32_stream.2.1 hbytes (by decide) hnumbers
    PackOptions.usable_default PackOptions.usable_default
  exact ⟨hne, hvalues, ho, hforth.trans (congrArg Except.ok rfl),
    hunpack.trans (congrArg Except.ok hpatterns),
    (congrArg (float32.pack (t := .f32) ·) hpatterns).symm.trans hpack⟩

theorem unpack_no_patterns :
    ¬ ∀ bytes : Array UInt8, 4 ∣ bytes.size → (∀ v ∈ patterns bytes, binary32.isNaN v = false) →
      ∃ values, float32.unpack .f32 bytes 0 = .ok values ∧ float32.pack values = .ok bytes := by
  intro h
  obtain ⟨values, hunpack, -⟩ := h #[] (by decide) (List.forall_mem_nil _)
  have hrefused : float32.unpack .f32 #[] 0 = .error .emptyInput := rfl
  rw [hrefused] at hunpack
  cases hunpack

end FieldFormat

end PackedStream
