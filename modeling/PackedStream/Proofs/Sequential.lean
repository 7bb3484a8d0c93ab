import PackedStream.Proofs.Pack.Checked

/-!
Which options can be worked with. No call that gets by without the chunk, or whose chunk can be
rounded up, has a fault, and each gives what it gives on the calling thread alone. A chunk next to
the end of the sizes has no multiple of eight above it that is a size: every call that asks for it
is a fault.
-/

namespace PackedStream

section Numbers

variable {f : FieldFormat} {t : HostType} {bytes : Array UInt8} {padding : ℕ} {o o' : PackOptions}
  (ho : o.validate = .ok ()) (ho' : o'.validate = .ok ())

include ho ho'

theorem FieldFormat.pack_congr (values : List t.Value) : f.pack values o = f.pack values o' := by
  cases hf : f.validate with
  | error e =>
    rw [pack, packPlan, pack, packPlan, hf]
    rfl
  | ok _ => rw [pack_eq_buffer hf ho, pack_eq_buffer hf ho']

theorem FieldFormat.unpack_congr :
    f.unpack t bytes padding o = f.unpack t bytes padding o' := by
  cases hcount : f.fieldCount bytes padding with
  | error e =>
    rw [unpack, unpackPlan, unpack, unpackPlan, hcount]
    rfl
  | ok count =>
    have hle (h8 : f.width = 8) : count ≤ bytes.size := (fieldCount_eq_iff.mp hcount).le_size h8
    rw [unpack_of_fieldCount ho t hcount hle, unpack_of_fieldCount ho' t hcount hle]

theorem FieldFormat.unpackTensor_congr (shape : Shape) :
    f.unpackTensor t bytes padding shape o = f.unpackTensor t bytes padding shape o' := by
  cases hcount : f.fieldCount bytes padding with
  | error e =>
    rw [unpackTensor, tensorCount, unpackTensor, tensorCount, hcount]
    rfl
  | ok count =>
    cases hcheck : shape.check count with
    | error e =>
      rw [unpackTensor, tensorCount, unpackTensor, tensorCount, hcount]
      simp only [bind, Except.bind, hcheck]
    | ok _ =>
      rw [unpackTensor_of_fieldCount ho t hcount hcheck,
        unpackTensor_of_fieldCount ho' t hcount hcheck]

theorem Tensor.pack_congr {data : Array t.Value} {x : Tensor t.Value} (hx : Shaped data x) :
    x.pack f o = x.pack f o' := by
  cases hf : f.validate with
  | error e =>
    rw [pack, packPlan, pack, packPlan, hf]
    rfl
  | ok _ => rw [pack_eq_buffer hf hx ho, pack_eq_buffer hf hx ho']

end Numbers

namespace Checked

structure Chunks (o : PackOptions) (size : ℕ) : Prop where
  rounded : roundedChunk o = .ok size
  pos : 0 < size
  dvd : 8 ∣ size
  chunk_le : o.chunk ≤ size
  lt_chunk : size < o.chunk + 8
  cuts_eq : ∀ count, cuts o count = .ok (decide (o.threshold ≤ count ∧ size < count))
  cut_eq : ∀ {α : Type} (xs : List α), cuts o xs.length = .ok true →
    o.threshold ≤ xs.length ∧ o.chunk < xs.length ∧
      ∃ chunks, cut size xs = .ok chunks ∧ 2 ≤ chunks.length ∧ [] ∉ chunks

/-- A call gives what the sequential one gives, which has no fault, unless a size overflows. -/
structure SequentialUnless {α : Type} (overflows : Prop) (call sequential : Except Fault α)
    (plain : Except StreamError α) : Prop where
  refines : sequential = plain.mapError .refused
  same : ¬ overflows → call = sequential
  overflow : overflows → call = .error .overflow

variable {o : PackOptions} (hvalid : o.validate = .ok ())

section Options

include hvalid

theorem chunks_of_le (ho : o.chunk ≤ sizeLimit - 8) : Chunks o o.roundedChunk := by
  have hcuts (count : ℕ) := cuts_eq (PackOptions.not_overflows_of_le ho count)
  have hpos := o.roundedChunk_pos
  refine ⟨roundedChunk_eq ho, hpos, o.dvd_roundedChunk, o.chunk_le_roundedChunk,
    PackOptions.roundedChunk_lt hvalid, fun count => ?_, fun xs hxs => ?_⟩
  · rw [hcuts, PackOptions.cuts, Bool.decide_and]
  · rw [hcuts] at hxs
    obtain ⟨hthreshold, hlt⟩ := PackOptions.cuts_iff.mp (Except.ok.inj hxs)
    refine ⟨hthreshold, o.chunk_le_roundedChunk.trans_lt hlt, _, cut_of_pos hpos xs,
      two_le_length_pieces hpos hlt, fun hmem => ?_⟩
    exact absurd (length_of_mem_pieces hmem).1 (lt_irrefl 0)

theorem exists_chunks_iff : (∃ size, Chunks o size) ↔ o.chunk ≤ sizeLimit - 8 := by
  constructor
  · rintro ⟨size, hchunks⟩
    by_contra hlow
    have hrounded := roundedChunk_of_lt (not_le.mp hlow)
    rw [hchunks.rounded] at hrounded
    cases hrounded
  · exact fun ho => ⟨_, chunks_of_le hvalid ho⟩

end Options

section Calls

variable {f : FieldFormat} {t : HostType}

theorem SequentialUnless.of_eq {α : Type} {overflows : Prop} {call sequential : Except Fault α}
    {plain plain' : Except StreamError α} (hsequential : sequential = plain'.mapError .refused)
    (hcall : ¬ overflows → call = plain.mapError .refused) (hcongr : plain = plain')
    (hover : overflows → call = .error .overflow) :
    SequentialUnless overflows call sequential plain' :=
  ⟨hsequential, fun h => by rw [hcall h, hcongr, hsequential], hover⟩

theorem not_overflows_sequential (count : ℕ) : ¬ PackOptions.sequential.Overflows count :=
  PackOptions.not_overflows_of_le PackOptions.usable_sequential.chunk_le count

theorem validate_sequential : PackOptions.sequential.validate = .ok () :=
  PackOptions.usable_sequential.valid

include hvalid

theorem pack_sequential {values : List t.Value}
    (hbits : 8 * (f.packedLength values.length).1 < sizeLimit) :
    SequentialUnless (f.validate = .ok () ∧ ¬ f.Copies t ∧ o.Overflows values.length)
      (pack f values o) (pack f values .sequential) (f.pack values .sequential) := by
  apply SequentialUnless.of_eq
  · exact pack_eq hbits fun _ => .inr (not_overflows_sequential _)
  · intro h
    apply pack_eq hbits
    tauto
  · exact FieldFormat.pack_congr hvalid validate_sequential values
  · exact fun ⟨hf, hcopies, hover⟩ => pack_of_overflows hf hvalid hcopies hover

theorem packTensor_sequential {data : Array t.Value} {x : Tensor t.Value} {tree : MergeTree}
    (hx : Tensor.Shaped data x) (htree : tree.ranges.Perm x.ranges)
    (hbits : 8 * (f.packedLength x.data.size).1 < sizeLimit) :
    SequentialUnless (f.validate = .ok () ∧ o.Overflows x.data.size)
      (packTensor f x o tree) (packTensor f x .sequential tree) (x.pack f .sequential) := by
  apply SequentialUnless.of_eq
  · exact packTensor_eq hx hbits htree fun _ => not_overflows_sequential _
  · exact fun h => packTensor_eq hx hbits htree fun hf hover => h ⟨hf, hover⟩
  · exact Tensor.pack_congr hvalid validate_sequential hx
  · exact fun ⟨hf, hover⟩ => packTensor_of_overflows hf hvalid hover

variable {bytes : Array UInt8} (hbytes : 8 * bytes.size < sizeLimit) (padding : ℕ)

include hbytes

theorem unpack_sequential :
    SequentialUnless
      (∃ count, f.fieldCount bytes padding = .ok count ∧ ¬ f.Copies t ∧ o.Overflows count)
      (unpack f t bytes padding o) (unpack f t bytes padding .sequential)
      (f.unpack t bytes padding .sequential) := by
  apply SequentialUnless.of_eq
  · exact unpack_eq hbytes t fun _ _ => .inr (not_overflows_sequential _)
  · intro h
    apply unpack_eq hbytes t
    intro count hcount
    by_contra hbad
    exact h ⟨count, hcount, by tauto⟩
  · exact FieldFormat.unpack_congr hvalid validate_sequential
  · rintro ⟨count, hcount, hcopies, hover⟩
    have hcounts := FieldFormat.fieldCount_eq_iff.mp hcount
    exact unpack_of_overflows hbytes hcounts hvalid t hcopies hover

theorem unpackTensor_sequential (shape : Shape) :
    SequentialUnless
      (∃ count, f.fieldCount bytes padding = .ok count ∧ shape.check count = .ok () ∧
        o.Overflows count)
      (unpackTensor f t bytes padding shape o) (unpackTensor f t bytes padding shape .sequential)
      (f.unpackTensor t bytes padding shape .sequential) := by
  apply SequentialUnless.of_eq
  · exact unpackTensor_eq hbytes t shape fun _ _ _ => not_overflows_sequential _
  · intro h
    apply unpackTensor_eq hbytes t shape
    exact fun count hcount hcheck hover => h ⟨count, hcount, hcheck, hover⟩
  · exact FieldFormat.unpackTensor_congr hvalid validate_sequential shape
  · rintro ⟨count, hcount, hcheck, hover⟩
    have hcounts := FieldFormat.fieldCount_eq_iff.mp hcount
    exact unpackTensor_of_overflows hbytes hcounts hvalid t hcheck hover

end Calls

/--
A chunk that passes the check is rounded up to a multiple of eight, and work is cut into two chunks
or more of it, exactly if it is not next to the end of the sizes. A call gives what it gives without
cutting, where nothing is a fault, unless it asks for such a chunk: then it is one.
-/
theorem sequential_unless_overflows (hvalid : o.validate = .ok ()) :
    ((∃ size, Chunks o size) ↔ o.chunk ≤ sizeLimit - 8) ∧
    ∀ (f : FieldFormat) (t : HostType),
      (∀ values : List t.Value, 8 * (f.packedLength values.length).1 < sizeLimit →
        SequentialUnless (f.validate = .ok () ∧ ¬ f.Copies t ∧ o.Overflows values.length)
          (pack f values o) (pack f values .sequential) (f.pack values .sequential)) ∧
      (∀ (data : Array t.Value) (x : Tensor t.Value) (tree : MergeTree), Tensor.Shaped data x →
        tree.ranges.Perm x.ranges → 8 * (f.packedLength x.data.size).1 < sizeLimit →
        SequentialUnless (f.validate = .ok () ∧ o.Overflows x.data.size)
          (packTensor f x o tree) (packTensor f x .sequential tree) (x.pack f .sequential)) ∧
      ∀ (bytes : Array UInt8) (padding : ℕ), 8 * bytes.size < sizeLimit →
        SequentialUnless
          (∃ count, f.fieldCount bytes padding = .ok count ∧ ¬ f.Copies t ∧ o.Overflows count)
          (unpack f t bytes padding o) (unpack f t bytes padding .sequential)
          (f.unpack t bytes padding .sequential) ∧
        ∀ shape : Shape, SequentialUnless
          (∃ count, f.fieldCount bytes padding = .ok count ∧ shape.check count = .ok () ∧
            o.Overflows count)
          (unpackTensor f t bytes padding shape o) (unpackTensor f t bytes padding shape .sequential)
          (f.unpackTensor t bytes padding shape .sequential) := by
  refine ⟨exists_chunks_iff hvalid, fun f t => ⟨?_, ?_, ?_⟩⟩
  · exact fun values hbits => pack_sequential hvalid hbits
  · exact fun data x tree hx htree hbits => packTensor_sequential hvalid hx htree hbits
  · exact fun bytes padding hbytes => ⟨unpack_sequential hvalid hbytes padding,
      unpackTensor_sequential hvalid hbytes padding⟩

theorem sequential_in_chunks :
    (⟨0, 9⟩ : PackOptions).validate = .ok () ∧ (∃ size, Chunks ⟨0, 9⟩ size) ∧
      pack (.int 5) (t := .i8) [-3, 2, 1, -1, 0, 5, -16, 15, -2, 3, 4, 6, 7, 8, 9, 10, -11] ⟨0, 9⟩ =
        pack (.int 5) (t := .i8) [-3, 2, 1, -1, 0, 5, -16, 15, -2, 3, 4, 6, 7, 8, 9, 10, -11]
          .sequential ∧
      unpack (.int 5) .i8 #[0x5D, 0x84, 0x0F] 4 ⟨0, 9⟩ = .ok [-3, 2, 1, -1] := by
  have hvalid : (⟨0, 9⟩ : PackOptions).validate = .ok () := rfl
  have hchunk : (⟨0, 9⟩ : PackOptions).chunk ≤ sizeLimit - 8 := by decide
  have hover := PackOptions.not_overflows_of_le hchunk
  obtain ⟨hchunks, hcalls⟩ := sequential_unless_overflows hvalid
  obtain ⟨hpack, -, hunpack⟩ := hcalls (.int 5) .i8
  refine ⟨hvalid, hchunks.mpr hchunk, ?_, ?_⟩
  · exact (hpack _ (by decide)).same fun h => hover _ h.2.2
  · have hbytes := (hunpack #[0x5D, 0x84, 0x0F] 4 (by decide)).1
    rw [hbytes.same fun ⟨count, _, _, h⟩ => hover count h, hbytes.refines]
    rfl

theorem greatest_chunk_overflows :
    (⟨0, sizeLimit - 1⟩ : PackOptions).validate = .ok () ∧
      roundedChunk ⟨0, sizeLimit - 1⟩ = .error .overflow ∧
      pack (.uint 4) (t := .u8) [1, 2] ⟨0, sizeLimit - 1⟩ = .error .overflow ∧
      pack (.uint 4) (t := .u8) [1, 2] .sequential = .ok #[0x21] ∧
      unpack (.uint 4) .u8 #[0x21] 0 ⟨0, sizeLimit - 1⟩ = .error .overflow ∧
      unpack (.uint 4) .u8 #[0x21] 0 .sequential = .ok [1, 2] := by
  refine ⟨rfl, rfl, rfl, rfl, rfl, rfl⟩

end Checked

end PackedStream
