import PackedStream.Proofs.Native
import PackedStream.Proofs.Tensor.View
import PackedStream.Proofs.Unpack.Answers
import PackedStream.Unpack.Checked

/-!
No step of unpacking in the arithmetic of words is a fault, as long as the number of bits is a size:
what comes out is what unpacking in numbers gives, value or refusal.
-/

namespace PackedStream.Checked

variable {m n : ℕ}

theorem sub_of_le (h : n ≤ m) : sub m n = .ok (m - n) := if_pos h

theorem div_of_pos (h : 0 < n) : div m n = .ok (m / n) := if_neg h.ne'

theorem mod_of_pos (h : 0 < n) : mod m n = .ok (m % n) := if_neg h.ne'

section Words

variable {w : ℕ} {x : BitVec w}

theorem shiftLeft_of_lt (h : n < w) : shiftLeft x n = .ok (x <<< n) := if_pos h

theorem shiftRight_of_lt (h : n < w) : shiftRight x n = .ok (x >>> n) := if_pos h

theorem lowBits_eq (h : n < 64) : lowBits n = .ok (FieldFormat.uint n).mask := by
  have hbit : ((1 : Word) <<< n).toNat = 2 ^ n := by
    have hlt : 2 ^ n < 2 ^ 64 := Nat.pow_lt_pow_right (by decide) h
    rw [BitVec.toNat_shiftLeft, Nat.shiftLeft_eq]
    exact (Nat.one_mul _).symm ▸ Nat.mod_eq_of_lt hlt
  rw [lowBits, shiftLeft_of_lt h]
  simp only [bind, Except.bind, hbit, sub_of_le Nat.one_le_two_pow]
  rw [FieldFormat.mask, FieldFormat.width, if_neg (by omega)]
  rfl

theorem signExtend_eq {field : Word} {width : ℕ} (hpos : 0 < width) (hle : width ≤ 64)
    (hfield : field.toNat < 2 ^ width) :
    signExtend field width = .ok ((field.setWidth width).signExtend 64) := by
  obtain rfl | hlt := Nat.eq_or_lt_of_le hle
  · rw [signExtend, if_pos le_rfl, BitVec.setWidth_eq, BitVec.signExtend_eq]
    rfl
  have hmsb : (field.setWidth width).msb = field.getLsbD (width - 1) := by
    rw [BitVec.msb_eq_getLsbD_last, BitVec.getLsbD_setWidth, decide_eq_true (by omega),
      Bool.true_and]
  have hsign : field &&& (1 : Word) <<< (width - 1) =
      if field.getLsbD (width - 1) = true then BitVec.twoPow 64 (width - 1) else 0 :=
    BitVec.and_twoPow field (width - 1)
  rw [signExtend, if_neg (not_le.mpr hlt), sub_of_le hpos]
  simp only [bind, Except.bind, shiftLeft_of_lt (by omega : width - 1 < 64), lowBits_eq hlt, hsign]
  cases hbit : field.getLsbD (width - 1) with
  | false =>
    rw [hbit] at hmsb
    rw [BitVec.signExtend_eq_setWidth_of_msb_false hmsb,
      FieldFormat.setWidth_setWidth_of_lt hfield]
    rfl
  | true =>
    have hne : BitVec.twoPow 64 (width - 1) ≠ 0 := by
      intro h
      have hget := congrArg (BitVec.getLsbD · (width - 1)) h
      simp at hget
      omega
    rw [if_pos rfl, if_neg hne]
    apply congrArg Except.ok
    apply BitVec.eq_of_getLsbD_eq
    intro j hj
    rw [BitVec.getLsbD_or, BitVec.getLsbD_not, FieldFormat.getLsbD_mask, BitVec.getLsbD_signExtend,
      BitVec.getLsbD_setWidth, hmsb, hbit, FieldFormat.width]
    by_cases hjw : j < width <;> simp [hj, hjw]

end Words

section Fields

variable {bytes : Array UInt8}

theorem exists_load {first last : ℕ} (hlast : last ≤ bytes.size) (hcount : last - first ≤ 16) :
    ∃ window, load bytes first last = .ok window ∧ ∀ k, window.getLsbD k =
      (decide (k < 8 * (last - first)) && Bytes.bit bytes (8 * first + k)) := by
  unfold load
  split
  case isTrue h =>
    have hsize : (bytes.extract first last).size = last - first := by
      rw [Array.size_extract, min_eq_left hlast]
    refine ⟨BitVec.ofNat 128 (Bytes.number (bytes.extract first last) 0 16), ?_, fun k => ?_⟩
    · rw [sub_of_le h.le, slice, if_pos ⟨h.le, hlast⟩]
      exact if_pos ⟨hcount, hsize⟩
    · rw [BitVec.getLsbD_ofNat, Bytes.testBit_number, Bytes.bit_extract hlast, Nat.mul_zero,
        Nat.zero_add]
      by_cases hk : k < 8 * (last - first)
      · have hwindow : k < 128 := by omega
        simp [hk, hwindow]
      · simp [hk]
  case isFalse h =>
    refine ⟨0, rfl, fun k => ?_⟩
    have hnone : ¬ k < 8 * (last - first) := by omega
    rw [decide_eq_false hnone, Bool.false_and]
    exact BitVec.getLsbD_zero

theorem field_eq {offset width : ℕ} (hoffset : offset < sizeLimit) (hwidth : width ≤ 64) :
    field bytes offset width = .ok (Bytes.field bytes offset width) := by
  rw [sizeLimit_eq] at hoffset
  have hshift : offset % 8 < 8 := Nat.mod_lt _ (by decide)
  have hwide : asSize (offset % 8 + width) = .ok (offset % 8 + width) :=
    asSize_of_lt (by rw [sizeLimit_eq]; omega)
  have hend : asSize (offset / 8 + (offset % 8 + width + 7) / 8) =
      .ok (offset / 8 + (offset % 8 + width + 7) / 8) := asSize_of_lt (by rw [sizeLimit_eq]; omega)
  have hcount : min (offset / 8 + (offset % 8 + width + 7) / 8) bytes.size - offset / 8 ≤ 16 := by
    omega
  obtain ⟨window, hload, hbit⟩ := exists_load (min_le_right _ _) hcount
  have hvalue {j : ℕ} (hj : j < width) :
      ((window >>> (offset % 8)).setWidth 64).getLsbD j = Bytes.bit bytes (offset + j) := by
    have hpos : 8 * (offset / 8) + (offset % 8 + j) = offset + j := by omega
    rw [BitVec.getLsbD_setWidth, BitVec.getLsbD_ushiftRight, hbit, hpos,
      decide_eq_true (by omega : j < 64), Bool.true_and]
    by_cases hin : offset % 8 + j <
        8 * (min (offset / 8 + (offset % 8 + width + 7) / 8) bytes.size - offset / 8)
    · rw [decide_eq_true hin, Bool.true_and]
    · -- Only the end of the bytes can have cut the window before the end of the field.
      rw [decide_eq_false hin, Bool.false_and, Bytes.bit_of_le (by omega)]
  rw [field]
  simp only [bind, Except.bind, hwide, hend, hload, shiftRight_of_lt (by omega : offset % 8 < 128)]
  split
  case isTrue h =>
    apply congrArg Except.ok
    apply BitVec.eq_of_getLsbD_eq
    intro j hj
    have hjw : j < width := by omega
    rw [hvalue hjw, Bytes.getLsbD_field bytes offset hwidth, decide_eq_true hjw, Bool.true_and]
  case isFalse h =>
    rw [lowBits_eq (not_le.mp h)]
    apply congrArg Except.ok
    apply BitVec.eq_of_getLsbD_eq
    intro j hj
    rw [BitVec.getLsbD_and, FieldFormat.getLsbD_mask, Bytes.getLsbD_field bytes offset hwidth,
      FieldFormat.width, decide_eq_true hj, Bool.and_true]
    by_cases hjw : j < width
    · rw [hvalue hjw, decide_eq_true hjw, Bool.and_comm]
    · rw [decide_eq_false hjw, Bool.and_false, Bool.false_and]

variable {f : FieldFormat} (hf : f.validate = .ok ())

include hf in
theorem decode_eq {field : Word} (hfield : field.toNat < 2 ^ f.width) :
    decode f field = .ok (f.decode field) := by
  have hsign := signExtend_eq (FieldFormat.width_pos hf) (FieldFormat.width_le hf) hfield
  cases f with
  | uint | binary | float32 | bipolar => rfl
  | int | ternary =>
    change (do return Scalar.int (← signExtend field _) : Except Fault Scalar) = _
    rw [hsign]
    rfl
  | fixed bits intBits =>
    rw [decode, hsign]
    rfl

include hf in
theorem valueAt_eq (t : HostType) {i : ℕ} (hi : i * f.width < sizeLimit) :
    valueAt f t bytes i = .ok (f.valueAt t bytes i) := by
  rw [valueAt, asSize_of_lt hi]
  simp only [bind, Except.bind, field_eq hi (FieldFormat.width_le hf),
    decode_eq hf (Bytes.field_lt _ _ _)]
  rfl

end Fields

section Counts

variable {f : FieldFormat} {bytes : Array UInt8} {padding : ℕ}
  (hbytes : 8 * bytes.size < sizeLimit)

theorem fits_eq {bits : ℕ} (hpos : 0 < f.width) : fits f bits padding =
    .ok (decide (¬ (bits < padding ∨ (bits - padding) % f.width ≠ 0))) := by
  unfold fits
  split
  case isTrue h => simp [h]
  case isFalse h =>
    rw [sub_of_le (not_lt.mp h)]
    simp only [bind, Except.bind, mod_of_pos hpos, h, false_or, not_not]
    rfl

include hbytes in
theorem fieldCount_eq :
    fieldCount f bytes padding = (f.fieldCount bytes padding).mapError .refused := by
  rw [Nat.mul_comm] at hbytes
  unfold fieldCount FieldFormat.fieldCount
  cases bytes.isEmpty with
  | true => rfl
  | false =>
    cases hf : f.validate with
    | error e => rfl
    | ok _ =>
      have hpos := FieldFormat.width_pos hf
      simp only [bind, Except.bind, Except.mapError, pure, Except.pure, asSize_of_lt hbytes,
        fits_eq hpos, Bool.false_eq_true, if_false, decide_eq_true_eq]
      by_cases h : bytes.size * 8 < padding ∨ (bytes.size * 8 - padding) % f.width ≠ 0
      · rw [if_neg (not_not.mpr h), if_pos h]
        rfl
      · rw [if_pos h, if_neg h, sub_of_le (not_lt.mp (not_or.mp h).1)]
        exact div_of_pos hpos

end Counts

section Options

variable {o : PackOptions} {count : ℕ}

theorem roundedChunk_eq (h : o.chunk ≤ sizeLimit - 8) : roundedChunk o = .ok o.roundedChunk :=
  asSize_of_lt (PackOptions.roundedChunk_lt_sizeLimit_iff.mpr h)

theorem roundedChunk_of_lt (h : sizeLimit - 8 < o.chunk) : roundedChunk o = .error .overflow :=
  if_neg fun hlt => not_le.mpr h (PackOptions.roundedChunk_lt_sizeLimit_iff.mp hlt)

theorem cuts_eq (h : ¬ o.Overflows count) : cuts o count = .ok (o.cuts count) := by
  rw [cuts, PackOptions.cuts]
  split
  case isTrue hthreshold =>
    rw [roundedChunk_eq (not_lt.mp fun hchunk => h ⟨hthreshold, hchunk⟩)]
    simp [hthreshold]
  case isFalse hthreshold => simp [hthreshold]

theorem cuts_of_overflows (h : o.Overflows count) : cuts o count = .error .overflow := by
  rw [cuts, if_pos h.1, roundedChunk_of_lt h.2]
  rfl

theorem roundedChunk_of_cuts (h : ¬ o.Overflows count) (hcuts : o.cuts count = true) :
    roundedChunk o = .ok o.roundedChunk :=
  roundedChunk_eq (not_lt.mp fun hchunk => h ⟨(PackOptions.cuts_iff.mp hcuts).1, hchunk⟩)

end Options

section Unpack

variable {f : FieldFormat} {bytes : Array UInt8} {padding count : ℕ} {o : PackOptions}
  {shape : Shape}

theorem copy?_eq (t : HostType) (hle : f.width = 8 → count ≤ bytes.size) : copy? f t bytes count =
    .ok (if f.width = 8 ∧ f.isInteger = true then t.ofBytes? (bytes.extract 0 count) else none) := by
  unfold copy?
  split
  case isTrue h =>
    rw [slice, if_pos ⟨Nat.zero_le _, hle h.1⟩]
    rfl
  case isFalse => rfl

variable (hbytes : 8 * bytes.size < sizeLimit)

section Counted

variable (hcount : f.Counts bytes padding (.ok count)) (hvalid : o.validate = .ok ())

include hbytes hcount in
theorem mapM_valueAt (t : HostType) {places : List ℕ} (hplaces : ∀ i ∈ places, i < count) :
    places.mapM (valueAt f t bytes) = .ok (places.map (f.valueAt t bytes)) := by
  obtain ⟨hf, hmul⟩ := hcount.mul_width
  refine mapM_eq_ok fun i hi => valueAt_eq hf t ?_
  have hle := Nat.mul_le_mul_right f.width (hplaces i hi).le
  omega

include hbytes hcount in
theorem mapM_groups (t : HostType) {α : Type} {groups : List α} (places : α → List ℕ)
    (hcover : groups.flatMap places = List.range count) :
    (do
      let values ← groups.mapM fun g => (places g).mapM (valueAt f t bytes)
      return values.flatten : Except Fault (List t.Value)) =
        .ok ((List.range count).map (f.valueAt t bytes)) := by
  have hgroup : ∀ g ∈ groups, (places g).mapM (valueAt f t bytes) =
      .ok ((places g).map (f.valueAt t bytes)) := by
    intro g hg
    apply mapM_valueAt hbytes hcount
    intro i hi
    exact List.mem_range.mp (hcover ▸ List.mem_flatMap_of_mem hg hi)
  rw [mapM_eq_ok hgroup, ← hcover, List.map_flatMap]
  rfl

include hbytes hcount hvalid

theorem unpack_of_counts (t : HostType) (h : f.Copies t ∨ ¬ o.Overflows count) :
    unpack f t bytes padding o = .ok ((List.range count).map (f.valueAt t bytes)) := by
  rw [unpack, unpackPlan, fieldCount_eq hbytes, hcount.fieldCount_eq, hvalid]
  simp only [Except.mapError, bind, Except.bind, copy?_eq t hcount.le_size]
  cases hcopy : if f.width = 8 ∧ f.isInteger = true then t.ofBytes? (bytes.extract 0 count)
    else none with
  | some values =>
    obtain ⟨⟨h8, hint⟩, hvalues⟩ := Option.ite_none_right_eq_some.mp hcopy
    exact congrArg Except.ok (FieldFormat.copy_eq_map_valueAt h8 hint (hcount.le_size h8) hvalues)
  | none =>
    have hover := h.resolve_left (FieldFormat.ofBytes_eq_none_iff.mp hcopy)
    simp only [cuts_eq hover]
    cases hcuts : o.cuts count with
    | true =>
      simp only [roundedChunk_of_cuts hover hcuts, if_true]
      refine mapM_groups hbytes hcount t (fun piece => piece) ?_
      rw [List.flatMap_id']
      exact flatten_pieces (by omega) _
    | false => exact mapM_valueAt hbytes hcount t fun i => List.mem_range.mp

theorem unpack_of_overflows (t : HostType) (hcopies : ¬ f.Copies t) (hover : o.Overflows count) :
    unpack f t bytes padding o = .error .overflow := by
  rw [unpack, unpackPlan, fieldCount_eq hbytes, hcount.fieldCount_eq, hvalid]
  simp only [Except.mapError, bind, Except.bind, copy?_eq t hcount.le_size,
    FieldFormat.ofBytes_eq_none_iff.mpr hcopies, cuts_of_overflows hover]

variable (t : HostType) (hcheck : shape.check count = .ok ())

include hcheck

theorem unpackTensor_of_cuts {b : Bool} (hcuts : cuts o count = .ok b) :
    unpackTensor f t bytes padding shape o = .ok ((List.range count).map (f.valueAt t bytes)) := by
  rw [unpackTensor, unpackTensorPlan, fieldCount_eq hbytes, hcount.fieldCount_eq]
  simp only [Except.mapError, bind, Except.bind, hcheck, hvalid, hcuts, pure, Except.pure,
    Shape.rangesOf_eq hcheck]
  split
  · refine mapM_groups hbytes hcount t (fun r : ℕ × ℕ => List.range' r.1 (r.2 - r.1)) ?_
    obtain ⟨hne, -, hprod, -⟩ := Shape.check_eq_ok_iff.mp hcheck
    have hdvd : shape.inner ∣ count := hprod ▸ Shape.inner_dvd_prod hne
    have htile := Shape.flatMap_range' (count / shape.inner) shape.inner
    rw [Nat.div_mul_cancel hdvd] at htile
    simpa only [List.flatMap_map, Nat.succ_mul, Nat.add_sub_cancel_left] using htile
  · exact mapM_valueAt hbytes hcount t fun i => List.mem_range.mp

theorem unpackTensor_of_overflows (hover : o.Overflows count) :
    unpackTensor f t bytes padding shape o = .error .overflow := by
  rw [unpackTensor, unpackTensorPlan, fieldCount_eq hbytes, hcount.fieldCount_eq]
  simp only [Except.mapError, bind, Except.bind, hcheck, hvalid, cuts_of_overflows hover]

end Counted

section Faults

def Mild (fault : Fault) : Prop := (∃ e, fault = .refused e) ∨ fault = .overflow

variable {fault : Fault}

theorem mild_refused (e : StreamError) : Mild (.refused e) := .inl ⟨e, rfl⟩

theorem fieldCount_of_size (f : FieldFormat) (padding : ℕ) (h : sizeLimit ≤ 8 * bytes.size) :
    ∃ fault, fieldCount f bytes padding = .error fault ∧ Mild fault := by
  have hover : asSize (bytes.size * 8) = .error .overflow := if_neg (by omega)
  unfold fieldCount
  cases bytes.isEmpty with
  | true => exact ⟨_, rfl, mild_refused .emptyInput⟩
  | false =>
    cases f.validate with
    | error e => exact ⟨_, rfl, mild_refused e⟩
    | ok _ =>
      rw [hover]
      exact ⟨_, rfl, .inr rfl⟩

theorem fieldCount_cases (f : FieldFormat) (bytes : Array UInt8) (padding : ℕ) :
    (∃ fault, fieldCount f bytes padding = .error fault ∧ Mild fault) ∨
    ∃ count, fieldCount f bytes padding = .ok count ∧ f.Counts bytes padding (.ok count) ∧
      8 * bytes.size < sizeLimit := by
  by_cases hbytes : 8 * bytes.size < sizeLimit
  · rw [fieldCount_eq hbytes]
    cases hcount : f.fieldCount bytes padding with
    | error e => exact .inl ⟨_, rfl, mild_refused e⟩
    | ok count => exact .inr ⟨count, rfl, FieldFormat.fieldCount_eq_iff.mp hcount, hbytes⟩
  · exact .inl (fieldCount_of_size f padding (not_lt.mp hbytes))

theorem cuts_mild (h : cuts o count = .error fault) : Mild fault := by
  by_cases hover : o.Overflows count
  · rw [cuts_of_overflows hover] at h
    exact .inr (Except.error.inj h).symm
  · rw [cuts_eq hover] at h
    cases h

theorem unpackTensor_cases (f : FieldFormat) (t : HostType) (bytes : Array UInt8) (padding : ℕ)
    (shape : Shape) (o : PackOptions) :
    (∃ fault, unpackTensor f t bytes padding shape o = .error fault ∧ Mild fault) ∨
    ∃ count values, unpackTensor f t bytes padding shape o = .ok values ∧
      shape.check count = .ok () := by
  obtain ⟨fault, hfault, hmild⟩ | ⟨count, hcount, hcounts, hbytes⟩ := fieldCount_cases f bytes padding
  · exact .inl ⟨fault, by rw [unpackTensor, unpackTensorPlan, hfault]; rfl, hmild⟩
  cases hcheck : shape.check count with
  | error e =>
    refine .inl ⟨_, ?_, mild_refused e⟩
    simp only [unpackTensor, unpackTensorPlan, hcount, hcheck, bind, Except.bind, Except.mapError]
  | ok _ =>
    cases hvalid : o.validate with
    | error e =>
      refine .inl ⟨_, ?_, mild_refused e⟩
      simp only [unpackTensor, unpackTensorPlan, hcount, hcheck, hvalid, bind, Except.bind, Except.mapError]
    | ok _ =>
      cases hcuts : cuts o count with
      | error fault =>
        refine .inl ⟨fault, ?_, cuts_mild hcuts⟩
        simp only [unpackTensor, unpackTensorPlan, hcount, hcheck, hvalid, hcuts, bind, Except.bind, Except.mapError]
      | ok b => exact .inr ⟨count, _, unpackTensor_of_cuts hbytes hcounts hvalid t hcheck hcuts, hcheck⟩

end Faults

open FieldFormat (fieldCount_eq_iff unpack_of_fieldCount unpackTensor_of_fieldCount)

include hbytes

theorem unpack_eq (t : HostType) (h : ∀ count, f.fieldCount bytes padding = .ok count →
      f.Copies t ∨ ¬ o.Overflows count) :
    unpack f t bytes padding o = (f.unpack t bytes padding o).mapError .refused := by
  cases hcount : f.fieldCount bytes padding with
  | error e =>
    rw [unpack, unpackPlan, fieldCount_eq hbytes, FieldFormat.unpack, FieldFormat.unpackPlan, hcount]
    rfl
  | ok count =>
    have hcounts := fieldCount_eq_iff.mp hcount
    cases hvalid : o.validate with
    | error e =>
      rw [unpack, unpackPlan, fieldCount_eq hbytes, FieldFormat.unpack, FieldFormat.unpackPlan,
        hcount, hvalid]
      rfl
    | ok _ =>
      rw [unpack_of_counts hbytes hcounts hvalid t (h count hcount),
        unpack_of_fieldCount hvalid t hcount hcounts.le_size]
      rfl

theorem unpackTensor_eq (t : HostType) (shape : Shape)
    (h : ∀ count, f.fieldCount bytes padding = .ok count → shape.check count = .ok () →
      ¬ o.Overflows count) :
    unpackTensor f t bytes padding shape o =
      (f.unpackTensor t bytes padding shape o).mapError .refused := by
  cases hcount : f.fieldCount bytes padding with
  | error e =>
    rw [unpackTensor, unpackTensorPlan, fieldCount_eq hbytes, FieldFormat.unpackTensor,
      FieldFormat.tensorCount, hcount]
    rfl
  | ok count =>
    have hcounts := fieldCount_eq_iff.mp hcount
    cases hcheck : shape.check count with
    | error e =>
      rw [unpackTensor, unpackTensorPlan, fieldCount_eq hbytes, FieldFormat.unpackTensor,
        FieldFormat.tensorCount, hcount]
      simp only [Except.mapError, bind, Except.bind, hcheck]
    | ok _ =>
      cases hvalid : o.validate with
      | error e =>
        rw [unpackTensor, unpackTensorPlan, fieldCount_eq hbytes, FieldFormat.unpackTensor,
          FieldFormat.tensorCount, hcount]
        simp only [Except.mapError, bind, Except.bind, hcheck, hvalid]
      | ok _ =>
        rw [unpackTensor_of_cuts hbytes hcounts hvalid t hcheck (cuts_eq (h count hcount hcheck)),
          unpackTensor_of_fieldCount hvalid t hcount hcheck]
        rfl

theorem unpackHost_eq : unpackHost f bytes padding =
    (f.unpackHost bytes padding).mapError .refused := by
  rw [unpackHost, unpack_eq hbytes f.hostType fun count _ => .inr
    (PackOptions.not_overflows_of_le PackOptions.usable_default.chunk_le count),
    FieldFormat.unpackHost]
  cases f.unpack f.hostType bytes padding <;> rfl

end Unpack

/--
For every format, whatever its numbers, no way to unpack has a fault. Each of them answers by the
first of its checks that fails, or with as many values as there are fields.
-/
theorem unpack_answers (f : FieldFormat) (t : HostType) {bytes : Array UInt8} (padding : ℕ)
    (shape : Shape) {o : PackOptions} (hbytes : 8 * bytes.size < sizeLimit)
    (ho : o.chunk ≤ sizeLimit - 8) :
    (unpack f t bytes padding o = (f.unpack t bytes padding o).mapError .refused ∧
      unpackTensor f t bytes padding shape o =
        (f.unpackTensor t bytes padding shape o).mapError .refused ∧
      unpackHost f bytes padding = (f.unpackHost bytes padding).mapError .refused) ∧
    ∀ r, ((f.unpack t bytes padding o).map List.length = r ↔ f.Answers bytes padding none o r) ∧
      ((f.unpackTensor t bytes padding shape o).map List.length = r ↔
        f.Answers bytes padding (some shape) o r) ∧
      ((f.unpackHost bytes padding).map (fun vs => vs.values.length) = r ↔
        f.Answers bytes padding none {} r) := by
  have hover := PackOptions.not_overflows_of_le ho
  refine ⟨⟨?_, ?_, unpackHost_eq hbytes⟩, fun r => ⟨FieldFormat.length_unpack_iff t,
    FieldFormat.length_unpackTensor_iff t hbytes, FieldFormat.length_unpackHost_iff⟩⟩
  · exact unpack_eq hbytes t fun count _ => .inr (hover count)
  · exact unpackTensor_eq hbytes t shape fun count _ _ => hover count

theorem unpack_answers_hostile :
    8 * (#[1, 2] : Array UInt8).size < sizeLimit ∧ (⟨0, 0⟩ : PackOptions).chunk ≤ sizeLimit - 8 ∧
      unpack (.fixed 200 255) .f64 #[1, 2] 99 ⟨0, 0⟩ = .error (.refused (.unsupportedWidth 200)) ∧
      unpackTensor (.int 0) .i8 #[1, 2] 99 [] ⟨0, 0⟩ = .error (.refused (.unsupportedWidth 0)) ∧
      unpackTensor (.int 4) .i8 #[1, 2] 0 [0, 4] ⟨0, 0⟩ =
        .error (.refused (.shapeMismatch [0, 4] 4)) ∧
      unpackHost (.uint 0) #[1, 2] 16 = .error (.refused (.unsupportedWidth 0)) := by
  have hbytes : 8 * (#[1, 2] : Array UInt8).size < sizeLimit := by decide
  have ho : (⟨0, 0⟩ : PackOptions).chunk ≤ sizeLimit - 8 := by decide
  exact ⟨hbytes, ho, (unpack_answers (.fixed 200 255) .f64 99 [] hbytes ho).1.1,
    (unpack_answers (.int 0) .i8 99 [] hbytes ho).1.2.1,
    (unpack_answers (.int 4) .i8 0 [0, 4] hbytes ho).1.2.1,
    (unpack_answers (.uint 0) .u8 16 [] hbytes ho).1.2.2⟩

end PackedStream.Checked
