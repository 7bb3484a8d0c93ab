import PackedStream.Proofs.Represented

/-!
The numbers that each format is made for, as its description names them: what the test for a number
has to let through, and what the fields of a foreign stream should not leave.
-/

namespace PackedStream.FieldFormat

open FloatFormat (binary32 binary64 wide_binary64 magnitudeBits_binary32 magnitudeBits_binary64)

variable {f : FieldFormat} {v : ℚ} {i : ℤ}

def numbers : FieldFormat → Set ℚ
  | uint bits => Int.cast '' Set.Ico 0 (2 ^ bits)
  | int bits => Int.cast '' Set.Ico (-2 ^ (bits - 1)) (2 ^ (bits - 1))
  | fixed bits intBits =>
    Set.range fun code : BitVec bits => (code.toInt : ℚ) / 2 ^ (bits - intBits)
  | float32 => binary32.value '' {x : BitVec 32 | binary32.isFinite x = true}
  | binary => {0, 1}
  | ternary => {-1, 0, 1}
  | bipolar => {-1, 1}

section Sets

theorem intCast_mem_numbers_uint {bits : ℕ} :
    (i : ℚ) ∈ (uint bits).numbers ↔ 0 ≤ i ∧ i < 2 ^ bits := by
  rw [numbers, Int.cast_injective.mem_set_image, Set.mem_Ico]

theorem intCast_mem_numbers_int {bits : ℕ} :
    (i : ℚ) ∈ (int bits).numbers ↔ -2 ^ (bits - 1) ≤ i ∧ i < 2 ^ (bits - 1) := by
  rw [numbers, Int.cast_injective.mem_set_image, Set.mem_Ico]

theorem mem_numbers_iff (hf : f.validate = .ok ()) : v ∈ f.numbers ↔ f.Denotes v := by
  have hsteps (n : ℤ) : (n : ℚ) / 2 ^ 0 = n := by rw [pow_zero, div_one]
  cases f with
  | uint bits | int bits =>
    simp only [numbers, Denotes, lowest, magnitudeWidth, signed, fracBits, hsteps, Set.mem_image,
      Set.mem_Ico, and_assoc, eq_comm, width, Bool.false_eq_true, if_false, if_true]
  | fixed bits intBits =>
    have hpos : 0 < bits := width_pos hf
    change (∃ code : BitVec bits, _ = v) ↔
      ∃ n : ℤ, -2 ^ (bits - 1) ≤ n ∧ n < 2 ^ (bits - 1) ∧ v = n / 2 ^ (bits - intBits)
    constructor
    · rintro ⟨code, rfl⟩
      exact ⟨code.toInt, BitVec.le_toInt _, BitVec.toInt_lt, rfl⟩
    · rintro ⟨n, hlow, hhigh, rfl⟩
      exact ⟨BitVec.ofInt bits n, by rw [toInt_ofInt_of_bounds hpos hlow hhigh]⟩
  | float32 => exact (FloatFormat.exact_iff_exists magnitudeBits_binary32).symm
  | binary =>
    change (v = 0 ∨ v = 1) ↔ ∃ n : ℤ, 0 ≤ n ∧ n < 2 ∧ v = n / 2 ^ 0
    simp only [hsteps]
    constructor
    · rintro (rfl | rfl)
      · exact ⟨0, by simp⟩
      · exact ⟨1, by simp⟩
    · rintro ⟨n, hlow, hhigh, rfl⟩
      obtain rfl | rfl : n = 0 ∨ n = 1 := by omega
      all_goals simp
  | ternary =>
    change (v = -1 ∨ v = 0 ∨ v = 1) ↔ ∃ n : ℤ, -1 ≤ n ∧ n < 2 ∧ v = n / 2 ^ 0
    simp only [hsteps]
    constructor
    · rintro (rfl | rfl | rfl)
      · exact ⟨-1, by simp⟩
      · exact ⟨0, by simp⟩
      · exact ⟨1, by simp⟩
    · rintro ⟨n, hlow, hhigh, rfl⟩
      obtain rfl | rfl | rfl : n = -1 ∨ n = 0 ∨ n = 1 := by omega
      all_goals simp
  | bipolar => rfl

end Sets

section Test

variable (hf : f.validate = .ok ())

include hf in
theorem represents_of_mem_numbers {x : Word} (hx : binary64.isFinite x = true)
    (h : binary64.value x ∈ f.numbers) : f.represents x = true :=
  (represents_iff hf).mpr ⟨hx, .inl ((mem_numbers_iff hf).mp h)⟩

include hf in
theorem represents_ofInt_of_mem_numbers (h : (i : ℚ) ∈ f.numbers) :
    f.represents (binary64.ofInt i) = true := by
  have hexact (he : binary64.Exact i) : f.represents (binary64.ofInt i) = true := by
    obtain ⟨hfinite, hvalue⟩ := FloatFormat.value_ofInt (w := 64) magnitudeBits_binary64 he
    exact represents_of_mem_numbers hf hfinite (hvalue ▸ h)
  have hdenotes := (mem_numbers_iff hf).mp h
  by_cases hfloat : f = float32
  · subst hfloat
    exact hexact (FloatFormat.Exact.binary64 hdenotes)
  by_cases hbi : f = bipolar
  · subst hbi
    have hsign : i = -1 ∨ i = 1 := by
      obtain h | h : (i : ℚ) = -1 ∨ (i : ℚ) = 1 := hdenotes
      · exact .inl (by exact_mod_cast h)
      · exact .inr (by exact_mod_cast h)
    apply hexact
    obtain rfl | rfl := hsign
    all_goals exact FloatFormat.exact_intCast wide_binary64 (by decide)
  obtain ⟨n, hlow, hhigh, hn⟩ := (denotes_iff hfloat hbi).mp hdenotes
  have hsteps : (i : ℚ) / 2 ^ 0 = n / 2 ^ f.fracBits := by rw [pow_zero, div_one, hn]
  have hbelow : binary64.value f.least ≤ binary64.value (binary64.ofInt i : Word) := by
    rw [least_eq hf hfloat hbi]
    apply FloatFormat.value_ofDyadic_le magnitudeBits_binary64
    rw [hsteps, div_le_div_iff_of_pos_right (by positivity)]
    exact_mod_cast hlow
  have habove : binary64.value (binary64.ofInt i : Word) ≤ binary64.value f.greatest := by
    rw [greatest_eq hf hfloat hbi]
    apply FloatFormat.value_ofDyadic_le magnitudeBits_binary64
    rw [hsteps, div_le_div_iff_of_pos_right (by positivity)]
    exact_mod_cast Int.le_sub_one_of_lt hhigh
  have hleast := (value_least hf hfloat hbi).1
  have hgreatest := (value_greatest hf hfloat hbi).1
  have hfinite := FloatFormat.isFinite_of_value_le hleast hgreatest hbelow habove
  rw [represents_steps_iff hfloat hbi hfinite (abs_steps_lt_bound hf hfloat hbi hbelow habove),
    FloatFormat.le_iff hleast hfinite, FloatFormat.le_iff hfinite hgreatest]
  -- What the integer is rounded to is an integer, and as such on the grid.
  obtain ⟨k, hk⟩ := FloatFormat.exists_int_value_ofInt (w := 64) magnitudeBits_binary64
    wide_binary64 i
  refine ⟨⟨hbelow, habove⟩, k * 2 ^ f.fracBits, ?_⟩
  rw [hk, eq_div_iff (by positivity)]
  push_cast
  rfl

end Test

section Unpacked

variable (hf : f.validate = .ok ()) (hint : f.isInteger = true)

include hf hint in
theorem toInt_native_numbers {field : Word} (hfield : field.toNat < 2 ^ f.width) :
    if f = ternary ∧ field = 2 then f.hostType.toInt (f.native field) = -2
    else (f.hostType.toInt (f.native field) : ℚ) ∈ f.numbers := by
  have hvalue := toInt_native hf hint hfield
  cases f with
  | uint bits =>
    rw [if_neg (by simp), hvalue]
    exact intCast_mem_numbers_uint.mpr ⟨by omega, by exact_mod_cast hfield⟩
  | int bits =>
    rw [if_neg (by simp), hvalue]
    exact intCast_mem_numbers_int.mpr (fieldCode_bounds (width_le hf) field)
  | fixed | float32 => cases hint
  | binary =>
    rw [if_neg (by simp), hvalue]
    obtain rfl | rfl := eq_zero_or_eq_one hfield
    · exact .inl Nat.cast_zero
    · exact .inr Nat.cast_one
  | ternary =>
    have hcases : field = 0 ∨ field = 1 ∨ field = 2 ∨ field = 3 := by
      have hlt : field.toNat < 4 := hfield
      simp only [BitVec.toNat_eq]
      change field.toNat = 0 ∨ field.toNat = 1 ∨ field.toNat = 2 ∨ field.toNat = 3
      omega
    obtain rfl | rfl | rfl | rfl := hcases
    · rw [if_neg (by decide)]
      exact .inr (.inl Int.cast_zero)
    · rw [if_neg (by decide)]
      exact .inr (.inr Int.cast_one)
    · rw [if_pos (by decide)]
      rfl
    · rw [if_neg (by decide)]
      exact .inl rfl
  | bipolar =>
    rw [if_neg (by simp), hvalue, decode]
    cases field.getLsbD 0 with
    | false => exact .inl rfl
    | true => exact .inr rfl

theorem field_two_eq_two_iff (bytes : Array UInt8) (offset : ℕ) : Bytes.field bytes offset 2 = 2 ↔
    Bytes.bit bytes offset = false ∧ Bytes.bit bytes (offset + 1) = true := by
  rw [← BitVec.toNat_inj, Bytes.toNat_field bytes offset (by decide), Finset.sum_range_succ,
    Finset.sum_range_one, Nat.add_zero]
  cases Bytes.bit bytes offset <;> cases Bytes.bit bytes (offset + 1) <;> decide

theorem unpackHost_two : ternary.unpackHost #[2] 6 = .ok ⟨.i8, [-2]⟩ := rfl

theorem neg_two_notMem_numbers : (-2 : ℚ) ∉ ternary.numbers := by
  rintro (h | h | h) <;> norm_num at h

include hf hint in
theorem toInt_unpackHost {bytes : Array UInt8} {padding : ℕ} {vs : HostValues}
    (hvs : f.unpackHost bytes padding = .ok vs) :
    vs.values.length * f.width = 8 * bytes.size - padding ∧
    ∀ i (hi : i < vs.values.length),
      if f = ternary ∧ Bytes.bit bytes (2 * i) = false ∧ Bytes.bit bytes (2 * i + 1) = true then
        vs.type.toInt vs.values[i] = -2
      else (vs.type.toInt vs.values[i] : ℚ) ∈ f.numbers := by
  have hne : bytes ≠ #[] := by
    rintro rfl
    cases hvs
  obtain ⟨hp, hd⟩ := (unpackHost_eq_ok_iff hf hne).mp ⟨vs, hvs⟩
  rw [unpackHost_eq hf hne hp hd] at hvs
  obtain rfl := Except.ok.inj hvs
  constructor
  · rw [List.length_map, List.length_range, Nat.div_mul_cancel hd]
  · intro i hi
    have hfield := toInt_native_numbers hf hint (Bytes.field_lt bytes (i * f.width) f.width)
    have hbits : (f = ternary ∧ Bytes.field bytes (i * f.width) f.width = 2) ↔
        f = ternary ∧ Bytes.bit bytes (2 * i) = false ∧ Bytes.bit bytes (2 * i + 1) = true := by
      apply and_congr_right
      rintro rfl
      rw [Nat.mul_comm 2]
      exact field_two_eq_two_iff bytes _
    simp only [hbits] at hfield
    simpa only [List.getElem_map, List.getElem_range, valueAt_hostType] using hfield

include hf hint in
/--
Whatever a stream holds, the integers that it unpacks to are numbers of its format, with one
exception: the bits 0 and 1 of a ternary field unpack to -2.
-/
theorem unpackHost_numbers :
    (∀ {bytes : Array UInt8} {padding : ℕ} {vs : HostValues},
      f.unpackHost bytes padding = .ok vs →
      vs.values.length * f.width = 8 * bytes.size - padding ∧
      ∀ i (hi : i < vs.values.length),
        if f = ternary ∧ Bytes.bit bytes (2 * i) = false ∧ Bytes.bit bytes (2 * i + 1) = true then
          vs.type.toInt vs.values[i] = -2
        else (vs.type.toInt vs.values[i] : ℚ) ∈ f.numbers) ∧
    ((∀ (bytes : Array UInt8) (padding : ℕ) (vs : HostValues),
      f.unpackHost bytes padding = .ok vs →
      ∀ v ∈ vs.values, (vs.type.toInt v : ℚ) ∈ f.numbers) ↔ f ≠ ternary) := by
  refine ⟨toInt_unpackHost hf hint, ?_, ?_⟩
  · rintro h rfl
    exact neg_two_notMem_numbers (h _ _ _ unpackHost_two _ (List.mem_singleton_self _))
  · intro hne bytes padding vs hvs v hv
    obtain ⟨i, hi, rfl⟩ := List.getElem_of_mem hv
    have hplace := (toInt_unpackHost hf hint hvs).2 i hi
    rwa [if_neg (fun h => hne h.1)] at hplace

theorem unpackHost_numbers_int64 :
    (int 64).validate = .ok () ∧ (int 64).isInteger = true ∧
      ∀ (bytes : Array UInt8) (padding : ℕ) (vs : HostValues),
        (int 64).unpackHost bytes padding = .ok vs →
        ∀ v ∈ vs.values, (vs.type.toInt v : ℚ) ∈ (int 64).numbers :=
  ⟨rfl, rfl, (unpackHost_numbers rfl rfl).2.mpr (by decide)⟩

theorem unpackHost_leaves_numbers :
    ternary.validate = .ok () ∧ ternary.isInteger = true ∧ ∃ vs,
      ternary.unpackHost #[2] 6 = .ok vs ∧ ∃ v ∈ vs.values, (vs.type.toInt v : ℚ) ∉ ternary.numbers :=
  ⟨rfl, rfl, _, unpackHost_two, _, List.mem_singleton_self _, neg_two_notMem_numbers⟩

end Unpacked

end PackedStream.FieldFormat
