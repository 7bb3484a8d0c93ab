import PackedStream.Proofs.Unpack

/-!
What unpacking answers, in the order of its checks: the bytes, the format, the number of bits, the
shape, the options. Nothing is asked of the format, so that its width may be 0 or more than a word.
-/

namespace PackedStream.FieldFormat

variable {f : FieldFormat} {bytes : Array UInt8} {padding : ℕ} {shape : Shape}
  {shape? : Option Shape} {o : PackOptions} {r : Except StreamError ℕ}

inductive Counts (f : FieldFormat) (bytes : Array UInt8) (padding : ℕ) : Except StreamError ℕ → Prop
  | empty (h : bytes = #[]) : Counts f bytes padding (.error .emptyInput)
  | invalid {e : StreamError} (hne : bytes ≠ #[]) (h : f.validate = .error e) :
    Counts f bytes padding (.error e)
  | mismatch (hne : bytes ≠ #[]) (hf : f.validate = .ok ())
    (h : 8 * bytes.size < padding ∨ ¬ f.width ∣ 8 * bytes.size - padding) :
    Counts f bytes padding (.error (.bitLengthMismatch (8 * bytes.size) padding f.width))
  | fields (hne : bytes ≠ #[]) (hf : f.validate = .ok ()) (hp : padding ≤ 8 * bytes.size)
    (hd : f.width ∣ 8 * bytes.size - padding) :
    Counts f bytes padding (.ok ((8 * bytes.size - padding) / f.width))

/-- The number of values, over a shape if there is one, or the first check that fails. -/
inductive Answers (f : FieldFormat) (bytes : Array UInt8) (padding : ℕ) (shape? : Option Shape)
    (o : PackOptions) : Except StreamError ℕ → Prop
  | uncounted {e : StreamError} (h : f.Counts bytes padding (.error e)) :
    Answers f bytes padding shape? o (.error e)
  | emptyShape {count : ℕ} (h : f.Counts bytes padding (.ok count)) (hs : shape? = some []) :
    Answers f bytes padding shape? o (.error .emptyShape)
  | shapeMismatch {count : ℕ} {shape : Shape} (h : f.Counts bytes padding (.ok count))
    (hs : shape? = some shape) (hne : shape ≠ []) (hbad : 0 ∈ shape ∨ shape.prod ≠ count) :
    Answers f bytes padding shape? o (.error (.shapeMismatch shape count))
  | zeroChunk {count : ℕ} (h : f.Counts bytes padding (.ok count))
    (hs : ∀ shape ∈ shape?, shape ≠ [] ∧ 0 ∉ shape ∧ shape.prod = count) (ho : o.chunk = 0) :
    Answers f bytes padding shape? o (.error .zeroChunk)
  | values {count : ℕ} (h : f.Counts bytes padding (.ok count))
    (hs : ∀ shape ∈ shape?, shape ≠ [] ∧ 0 ∉ shape ∧ shape.prod = count) (ho : o.chunk ≠ 0) :
    Answers f bytes padding shape? o (.ok count)

section Counts

theorem exists_counts (f : FieldFormat) (bytes : Array UInt8) (padding : ℕ) :
    ∃ r, f.Counts bytes padding r := by
  by_cases hne : bytes = #[]
  · exact ⟨_, .empty hne⟩
  cases hf : f.validate with
  | error e => exact ⟨_, .invalid hne hf⟩
  | ok _ =>
    by_cases hfit : padding ≤ 8 * bytes.size ∧ f.width ∣ 8 * bytes.size - padding
    · exact ⟨_, .fields hne hf hfit.1 hfit.2⟩
    · rw [not_and_or, not_le] at hfit
      exact ⟨_, .mismatch hne hf hfit⟩

theorem Counts.fieldCount_eq (h : f.Counts bytes padding r) : f.fieldCount bytes padding = r := by
  cases h with
  | empty h =>
    subst h
    rfl
  | invalid hne h =>
    have hempty : bytes.isEmpty = false := by simpa using hne
    simp [fieldCount, hempty, h, bind, Except.bind]
  | mismatch hne hf h =>
    have hempty : bytes.isEmpty = false := by simpa using hne
    rw [Nat.dvd_iff_mod_eq_zero, Nat.mul_comm] at h
    simp only [fieldCount, hempty, hf, bind, Except.bind, pure, Except.pure, if_false, if_pos h,
      Bool.false_eq_true, Nat.mul_comm 8]
    rfl
  | fields hne hf hp hd => exact FieldFormat.fieldCount_eq hf hne hp hd

theorem fieldCount_eq_iff : f.fieldCount bytes padding = r ↔ f.Counts bytes padding r := by
  constructor
  · rintro rfl
    obtain ⟨r, h⟩ := exists_counts f bytes padding
    rwa [h.fieldCount_eq]
  · exact Counts.fieldCount_eq

theorem Counts.mul_width {count : ℕ} (h : f.Counts bytes padding (.ok count)) :
    f.validate = .ok () ∧ count * f.width = 8 * bytes.size - padding := by
  cases h with
  | fields hne hf hp hd => exact ⟨hf, Nat.div_mul_cancel hd⟩

theorem Counts.le_size {count : ℕ} (h : f.Counts bytes padding (.ok count)) (h8 : f.width = 8) :
    count ≤ bytes.size := by
  have hmul := h.mul_width.2
  rw [h8] at hmul
  omega

theorem Counts.le {count : ℕ} (h : f.Counts bytes padding (.ok count)) :
    count ≤ 8 * bytes.size := by
  obtain ⟨hf, hmul⟩ := h.mul_width
  have hle := Nat.le_mul_of_pos_right count (width_pos hf)
  omega

theorem Counts.check_eq {count : ℕ} (h : f.Counts bytes padding (.ok count))
    (hbytes : 8 * bytes.size < sizeLimit) (hs : shape ≠ [] ∧ 0 ∉ shape ∧ shape.prod = count) :
    shape.check count = .ok () :=
  Shape.check_eq_ok_iff.mpr ⟨hs.1, hs.2.1, hs.2.2, h.le.trans_lt hbytes⟩

end Counts

section Answers

theorem exists_answers (f : FieldFormat) (bytes : Array UInt8) (padding : ℕ)
    (shape? : Option Shape) (o : PackOptions) : ∃ r, f.Answers bytes padding shape? o r := by
  obtain ⟨r, hcounts⟩ := exists_counts f bytes padding
  cases r with
  | error e => exact ⟨_, .uncounted hcounts⟩
  | ok count =>
    by_cases hs : ∀ shape ∈ shape?, shape ≠ [] ∧ 0 ∉ shape ∧ shape.prod = count
    · by_cases ho : o.chunk = 0
      · exact ⟨_, .zeroChunk hcounts hs ho⟩
      · exact ⟨_, .values hcounts hs ho⟩
    · simp only [not_forall] at hs
      obtain ⟨shape, hshape, hbad⟩ := hs
      by_cases hne : shape = []
      · exact ⟨_, .emptyShape hcounts (hne ▸ hshape)⟩
      · refine ⟨_, .shapeMismatch hcounts hshape hne ?_⟩
        rw [not_and_or, not_and_or, not_not] at hbad
        simpa [hne] using hbad

theorem validate_zeroChunk (ho : o.chunk = 0) : o.validate = .error .zeroChunk := if_pos ho

theorem validate_chunk (ho : o.chunk ≠ 0) : o.validate = .ok () := if_neg ho

theorem Answers.length_unpack (t : HostType) (h : f.Answers bytes padding none o r) :
    (f.unpack t bytes padding o).map List.length = r := by
  cases h with
  | uncounted h =>
    rw [unpack, unpackPlan, h.fieldCount_eq]
    rfl
  | emptyShape h hs => cases hs
  | shapeMismatch h hs => cases hs
  | zeroChunk h _ ho =>
    rw [unpack, unpackPlan, h.fieldCount_eq, validate_zeroChunk ho]
    rfl
  | values h _ ho =>
    rw [unpack_of_fieldCount (validate_chunk ho) t h.fieldCount_eq h.le_size]
    exact congrArg Except.ok (by rw [List.length_map, List.length_range])

theorem Answers.length_unpackTensor (t : HostType) (hbytes : 8 * bytes.size < sizeLimit)
    (h : f.Answers bytes padding (some shape) o r) :
    (f.unpackTensor t bytes padding shape o).map List.length = r := by
  cases h with
  | uncounted h =>
    rw [unpackTensor, tensorCount, h.fieldCount_eq]
    rfl
  | emptyShape h hs =>
    obtain rfl := Option.some.inj hs
    rw [unpackTensor, tensorCount, h.fieldCount_eq]
    rfl
  | shapeMismatch h hs hne hbad =>
    obtain rfl := Option.some.inj hs
    rw [unpackTensor, tensorCount, h.fieldCount_eq]
    simp only [bind, Except.bind, Shape.check_eq_error hne hbad]
    rfl
  | zeroChunk h hs ho =>
    rw [unpackTensor, tensorCount, h.fieldCount_eq]
    simp only [bind, Except.bind, h.check_eq hbytes (hs shape rfl), validate_zeroChunk ho]
    rfl
  | values h hs ho =>
    rw [unpackTensor_of_fieldCount (validate_chunk ho) t h.fieldCount_eq
      (h.check_eq hbytes (hs shape rfl))]
    exact congrArg Except.ok (by rw [List.length_map, List.length_range])

theorem length_unpack_iff (t : HostType) :
    (f.unpack t bytes padding o).map List.length = r ↔ f.Answers bytes padding none o r := by
  constructor
  · rintro rfl
    obtain ⟨r, h⟩ := exists_answers f bytes padding none o
    rwa [h.length_unpack t]
  · exact Answers.length_unpack t

theorem length_unpackTensor_iff (t : HostType) (hbytes : 8 * bytes.size < sizeLimit) :
    (f.unpackTensor t bytes padding shape o).map List.length = r ↔
      f.Answers bytes padding (some shape) o r := by
  constructor
  · rintro rfl
    obtain ⟨r, h⟩ := exists_answers f bytes padding (some shape) o
    rwa [h.length_unpackTensor t hbytes]
  · exact Answers.length_unpackTensor t hbytes

theorem length_unpackHost_iff :
    (f.unpackHost bytes padding).map (fun vs => vs.values.length) = r ↔
      f.Answers bytes padding none {} r := by
  rw [← length_unpack_iff f.hostType, unpackHost]
  cases f.unpack f.hostType bytes padding <;> exact Iff.rfl

end Answers

end PackedStream.FieldFormat
