import PackedStream.Proofs.Fixed
import PackedStream.Proofs.RoundTrip

/-!
A float goes into a field as the whole steps of the format that it has, cut toward zero. What comes
back is exactly so many steps, at every width and position of the binary point.
-/

namespace PackedStream.FieldFormat

open FloatFormat (binary64 wide_binary64 magnitudeBits_binary64)

variable {f : FieldFormat} {x : Word}

def steps (f : FieldFormat) (x : Word) : ℤ := truncated (binary64.value x * 2 ^ f.fracBits)

theorem steps_eq_tdiv (f : FieldFormat) (x : Word) :
    f.steps x = (binary64.unitCount x * 2 ^ f.fracBits).tdiv (2 ^ binary64.unitShift : ℕ) := by
  rw [← truncated_div _ (Nat.two_pow_pos _), steps, FloatFormat.value]
  push_cast
  rw [div_mul_eq_mul_div]

theorem steps_bounds (f : FieldFormat) (x : Word) :
    |(f.steps x / 2 ^ f.fracBits : ℚ)| ≤ |binary64.value x| ∧
      |binary64.value x - f.steps x / 2 ^ f.fracBits| < 1 / 2 ^ f.fracBits := by
  have hpos : (0 : ℚ) < 2 ^ f.fracBits := by positivity
  have hle := abs_truncated_le (binary64.value x * 2 ^ f.fracBits)
  have hlt := abs_sub_truncated_lt (binary64.value x * 2 ^ f.fracBits)
  constructor
  · rw [abs_div, abs_of_pos hpos, div_le_iff₀ hpos]
    rwa [abs_mul, abs_of_pos hpos] at hle
  · have hsplit : binary64.value x - f.steps x / 2 ^ f.fracBits =
        (binary64.value x * 2 ^ f.fracBits - f.steps x) / 2 ^ f.fracBits := by
      rw [sub_div, mul_div_cancel_right₀ _ hpos.ne']
    rw [hsplit, abs_div, abs_of_pos hpos]
    exact div_lt_div_of_pos_right hlt hpos

theorem Holds.bounds (hf : f.validate = .ok ()) {n : ℤ} (h : f.Holds n) :
    -2 ^ 63 ≤ n ∧ n ≤ 2 ^ 64 - 1 := by
  have hw := width_le hf
  have hpow : (2 : ℤ) ^ f.width ≤ 2 ^ 64 := pow_le_pow_right₀ (by norm_num) hw
  have hhalf : (2 : ℤ) ^ (f.width - 1) ≤ 2 ^ 63 := pow_le_pow_right₀ (by norm_num) (by omega)
  unfold Holds at h
  split at h <;> omega

section Fields

variable (hf : f.validate = .ok ()) (hfloat : f ≠ float32) (hbi : f ≠ bipolar)
  (hx : binary64.isFinite x = true) (hn : f.Holds (f.steps x))

include hf hn in
theorem abs_mul_lt_bound_of_holds : |binary64.value x * 2 ^ f.fracBits| < binary64.bound := by
  obtain ⟨hlow, hhigh⟩ := hn.bounds hf
  have hcut := abs_lt.mp (abs_sub_truncated_lt (binary64.value x * 2 ^ f.fracBits))
  have hlow' : (-2 ^ 63 : ℚ) ≤ f.steps x := by exact_mod_cast hlow
  have hhigh' : (f.steps x : ℚ) ≤ 2 ^ 64 - 1 := by exact_mod_cast hhigh
  unfold steps at hlow' hhigh'
  apply FloatFormat.abs_lt_bound_binary64 <;> linarith

include hf hfloat hbi hx hn in
theorem encode_float_of_holds :
    f.encode (.float x) = (BitVec.ofInt f.width (f.steps x)).setWidth 64 := by
  obtain ⟨hlow, hhigh⟩ := hn.bounds hf
  have hcode := code_float_truncated hfloat hbi hx (abs_mul_lt_bound_of_holds hf hn)
  rw [encode_eq_setWidth, hcode, setWidth_ofInt (width_le hf)]
  change (BitVec.ofInt _ (max (-2 ^ 63) (min (2 ^ 64 - 1) (f.steps x)))).setWidth 64 = _
  rw [min_eq_right hhigh, max_eq_right hlow]

include hf hfloat hbi hx hn in
theorem fieldCode_encode_float (hs : f.signed = true) :
    f.fieldCode (f.encode (.float x)) = f.steps x := by
  rw [encode_float_of_holds hf hfloat hbi hx hn]
  rw [Holds, if_pos hs] at hn
  exact (fieldCode_ofInt (width_pos hf) (width_le hf) hn.1 hn.2).2

include hf hfloat hbi hx hn in
theorem toNat_encode_float (hs : f.signed = false) :
    ((f.encode (.float x)).toNat : ℤ) = f.steps x := by
  rw [encode_float_of_holds hf hfloat hbi hx hn]
  rw [Holds, if_neg (by simp [hs])] at hn
  rw [BitVec.toNat_setWidth_of_le (width_le hf), BitVec.toNat_ofInt, Int.toNat_of_nonneg
    (Int.emod_nonneg _ (by positivity))]
  push_cast
  exact Int.emod_eq_of_lt hn.1 hn.2

end Fields

section Fixed

variable {bits intBits : ℕ}

theorem decode_encode_fixed (hf : (fixed bits intBits).validate = .ok ())
    (hx : binary64.isFinite x = true) (hn : (fixed bits intBits).Holds ((fixed bits intBits).steps x)) :
    ∃ y : Word, (fixed bits intBits).decode ((fixed bits intBits).encode (.float x)) = .float y ∧
      binary64.isFinite y = true ∧
      binary64.value y = (fixed bits intBits).steps x / 2 ^ (bits - intBits) ∧
      |binary64.value y| ≤ |binary64.value x| ∧
      |binary64.value x - binary64.value y| < 1 / 2 ^ (bits - intBits) := by
  obtain ⟨y, hy, hfinite, hvalue⟩ := decode_fixed hf ((fixed bits intBits).encode (.float x))
  have hcode := fieldCode_encode_float hf (by simp) (by simp) hx hn rfl
  have hexact : binary64.Exact ((fixed bits intBits).steps x) :=
    ((FloatFormat.exact_value hx).mul_two_pow wide_binary64
      (abs_mul_lt_bound_of_holds hf hn)).truncated wide_binary64
  rw [← hcode] at hexact
  rw [(roundedCode_eq_iff hf _).mpr hexact, hcode] at hvalue
  refine ⟨y, hy, hfinite, hvalue, ?_⟩
  rw [hvalue]
  exact (fixed bits intBits).steps_bounds x

end Fixed

/--
A finite number whose whole steps a field holds goes into it as these steps, cut toward zero. From a
fixed-point format binary64 gets back exactly so many steps: not more than there was, and less than
one step off.
-/
theorem encode_float_truncates (hf : f.validate = .ok ()) (hfloat : f ≠ float32)
    (hbi : f ≠ bipolar) :
    (∀ x : Word, binary64.isFinite x = true → f.Holds (f.steps x) →
      (f.signed = true → f.fieldCode (f.encode (.float x)) = f.steps x) ∧
      (f.signed = false → ((f.encode (.float x)).toNat : ℤ) = f.steps x)) ∧
    (f.isFixed = true → ∀ o o' : PackOptions, o.Usable → o'.Usable →
      ∀ values : List HostType.f64.Value, values ≠ [] →
        (∀ x ∈ values, binary64.isFinite x = true ∧ f.Holds (f.steps x)) →
        ∃ (bytes : Array UInt8) (back : List HostType.f64.Value),
          f.pack values o = .ok bytes ∧
          f.unpack .f64 bytes (f.packedLength values.length).2 o' = .ok back ∧
          List.Forall₂ (fun x y => binary64.isFinite y = true ∧
            binary64.value y = f.steps x / 2 ^ f.fracBits ∧
            |binary64.value y| ≤ |binary64.value x| ∧
            |binary64.value x - binary64.value y| < 1 / 2 ^ f.fracBits) values back) := by
  refine ⟨fun x hx hn => ⟨fieldCode_encode_float hf hfloat hbi hx hn,
    toNat_encode_float hf hfloat hbi hx hn⟩, ?_⟩
  intro hfixed o o' ho ho' values hne hvalues
  obtain ⟨bytes, hpack, hunpack⟩ := unpack_pack hf ho ho' hne .f64
  refine ⟨bytes, _, hpack, hunpack, List.forall₂_map_right_iff.mpr (List.forall₂_same.mpr ?_)⟩
  intro x hmem
  obtain ⟨hx, hn⟩ := hvalues x hmem
  cases f with
  | fixed bits intBits =>
    obtain ⟨y, hy, hresult⟩ := decode_encode_fixed hf hx hn
    have hback : HostType.f64.ofScalar ((fixed bits intBits).decode
        ((fixed bits intBits).encode (HostType.f64.toScalar x))) = y := congrArg _ hy
    rw [hback]
    exact hresult
  | uint | int | float32 | binary | ternary | bipolar => cases hfixed

theorem encode_float_truncates_60 :
    (fixed 60 3).validate = .ok () ∧ fixed 60 3 ≠ float32 ∧ fixed 60 3 ≠ bipolar ∧
      (fixed 60 3).fieldCode ((fixed 60 3).encode (.float 0xBC68000000000000)) = -1 ∧
      ∃ (bytes : Array UInt8) (below zero : Word),
        (fixed 60 3).pack (t := .f64) [0xBC68000000000000, 1] = .ok bytes ∧
        (fixed 60 3).unpack .f64 bytes 0 = .ok [below, zero] ∧
        binary64.value below = -1 / 2 ^ 57 ∧ binary64.value zero = 0 := by
  have hbelow : (fixed 60 3).steps 0xBC68000000000000 = -1 := by
    rw [steps_eq_tdiv]
    decide +kernel
  have hzero : (fixed 60 3).steps 1 = 0 := by
    rw [steps_eq_tdiv]
    decide +kernel
  have hbelow' : binary64.isFinite (0xBC68000000000000 : Word) = true ∧
      (fixed 60 3).Holds ((fixed 60 3).steps 0xBC68000000000000) :=
    ⟨rfl, hbelow ▸ by decide⟩
  have hzero' : binary64.isFinite (1 : Word) = true ∧
      (fixed 60 3).Holds ((fixed 60 3).steps 1) :=
    ⟨rfl, hzero ▸ by decide⟩
  obtain ⟨hcode, hback⟩ :=
    encode_float_truncates (f := fixed 60 3) rfl (by decide) (by decide)
  obtain ⟨bytes, back, hpack, hunpack, hall⟩ :=
    hback rfl {} {} PackOptions.usable_default PackOptions.usable_default
      [0xBC68000000000000, 1] (by decide)
      (List.forall_mem_cons.mpr ⟨hbelow', List.forall_mem_singleton.mpr hzero'⟩)
  obtain _ | ⟨⟨-, hfirst, -⟩, _ | ⟨⟨-, hsecond, -⟩, _ | _⟩⟩ := hall
  refine ⟨rfl, by decide, by decide, ?_, bytes, _, _, hpack, hunpack, ?_, ?_⟩
  · exact ((hcode _ hbelow'.1 hbelow'.2).1 rfl).trans hbelow
  · have hstep : ((-1 : ℤ) / 2 ^ (fixed 60 3).fracBits : ℚ) = -1 / 2 ^ 57 := by norm_num [fracBits]
    exact hfirst.trans (hbelow ▸ hstep)
  · have hstep : ((0 : ℤ) / 2 ^ (fixed 60 3).fracBits : ℚ) = 0 := by norm_num
    exact hsecond.trans (hzero ▸ hstep)

end PackedStream.FieldFormat
