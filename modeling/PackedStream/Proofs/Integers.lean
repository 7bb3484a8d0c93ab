import PackedStream.Proofs.Field

namespace PackedStream

theorem setWidth_ofInt {m n : ℕ} (h : m ≤ n) (i : ℤ) :
    (BitVec.ofInt n i).setWidth m = BitVec.ofInt m i := by
  have hpow (k : ℕ) : (i % (2 ^ k : ℕ)).toNat = i % (2 ^ k : ℕ) :=
    Int.toNat_of_nonneg (Int.emod_nonneg _ (by positivity))
  have hdvd : ((2 ^ m : ℕ) : ℤ) ∣ (2 ^ n : ℕ) := Int.natCast_dvd_natCast.mpr (Nat.pow_dvd_pow 2 h)
  apply BitVec.eq_of_toNat_eq
  rw [BitVec.toNat_setWidth, BitVec.toNat_ofInt, BitVec.toNat_ofInt]
  apply Int.natCast_inj.mp
  rw [Int.natCast_emod, hpow, hpow, Int.emod_emod_of_dvd i hdvd]

theorem toInt_setWidth_of_lt {m n : ℕ} (h : m < n) (v : BitVec m) :
    (v.setWidth n).toInt = v.toNat := by
  rw [← BitVec.setWidth'_eq (by omega : m ≤ n), BitVec.toInt_setWidth'_of_lt h]

theorem two_mul_two_pow_pred {n : ℕ} (hn : 0 < n) : (2 : ℤ) * 2 ^ (n - 1) = 2 ^ n := by
  rw [← pow_succ', Nat.sub_add_cancel hn]

theorem toInt_ofInt_of_bounds {n : ℕ} {i : ℤ} (hn : 0 < n) (hlow : -2 ^ (n - 1) ≤ i)
    (hhigh : i < 2 ^ (n - 1)) : (BitVec.ofInt n i).toInt = i := by
  have hpow := two_mul_two_pow_pred hn
  rw [BitVec.toInt_ofInt]
  apply Int.bmod_eq_of_le_mul_two <;> push_cast <;> omega

theorem modEq_of_ofInt_eq {n : ℕ} {i j : ℤ} (h : BitVec.ofInt n i = BitVec.ofInt n j) :
    i ≡ j [ZMOD 2 ^ n] := by
  have hbmod (k : ℤ) : (BitVec.ofInt n k).toInt ≡ k [ZMOD (2 ^ n : ℕ)] := by
    rw [BitVec.toInt_ofInt]
    exact Int.bmod_emod
  have hmod := (hbmod i).symm.trans (h ▸ hbmod j)
  simpa using hmod

theorem setWidth_eq_ofInt (n : ℕ) {m : ℕ} (v : BitVec m) :
    v.setWidth n = BitVec.ofInt n v.toNat := by
  rw [BitVec.ofInt_natCast, BitVec.ofNat_toNat]

namespace HostType

def isInteger : HostType → Bool
  | f32 | f64 => false
  | _ => true

def toInt : (t : HostType) → t.Value → ℤ
  | i8, v | i16, v | i32, v | i64, v => BitVec.toInt v
  | u8, v | u16, v | u32, v | u64, v | f32, v | f64, v => BitVec.toNat v

theorem width_le (t : HostType) : t.width ≤ 64 := by
  cases t <;> decide

theorem ofInt_toInt (t : HostType) (v : t.Value) : BitVec.ofInt t.width (t.toInt v) = v := by
  cases t with
  | i8 | i16 | i32 | i64 => exact BitVec.ofInt_toInt
  | u8 | u16 | u32 | u64 | f32 | f64 =>
    exact (setWidth_eq_ofInt _ _).symm.trans (BitVec.setWidth_eq _)

variable {t : HostType}

theorem toScalar_integer (ht : t.isInteger = true) (v : t.Value) :
    t.toScalar v = .int (BitVec.ofInt 64 (t.toInt v)) ∨
      t.toScalar v = .uint (BitVec.ofInt 64 (t.toInt v)) := by
  cases t with
  | i8 | i16 | i32 | i64 => exact .inl rfl
  | u8 | u16 | u32 => exact .inl (congrArg Scalar.int (setWidth_eq_ofInt 64 _))
  | u64 => exact .inr (congrArg Scalar.uint (ofInt_toInt u64 v).symm)
  | f32 | f64 => cases ht

theorem isPositive_toScalar (ht : t.isInteger = true) (v : t.Value) :
    (t.toScalar v).isPositive = decide (0 < t.toInt v) := by
  have hsigned {m : ℕ} (h : m ≤ 64) (x : BitVec m) :
      decide (0 < (x.signExtend 64).toInt) = decide (0 < x.toInt) := by
    rw [BitVec.toInt_signExtend_of_le h]
  have hunsigned {m : ℕ} (h : m < 64) (x : BitVec m) :
      decide (0 < (x.setWidth 64).toInt) = decide (0 < (x.toNat : ℤ)) := by
    rw [toInt_setWidth_of_lt h]
  cases t with
  | i8 | i16 | i32 | i64 => exact hsigned (by decide) v
  | u8 | u16 | u32 => exact hunsigned (by decide) v
  | u64 => exact decide_eq_decide.mpr Int.natCast_pos.symm
  | f32 | f64 => cases ht

theorem ofScalar_int (ht : t.isInteger = true) (w : Word) :
    t.ofScalar (.int w) = w.setWidth t.width := by
  cases t with
  | u8 | u16 | u32 | u64 | i8 | i16 | i32 | i64 => rfl
  | f32 | f64 => cases ht

theorem ofScalar_uint (ht : t.isInteger = true) (w : Word) :
    t.ofScalar (.uint w) = w.setWidth t.width := by
  cases t with
  | u8 | u16 | u32 | u64 | i8 | i16 | i32 | i64 => rfl
  | f32 | f64 => cases ht

end HostType

namespace FieldFormat

/-- The integers that a field of two's complement, or an unsigned one, can tell apart. -/
def Holds (f : FieldFormat) (m : ℤ) : Prop :=
  if f.signed = true then -2 ^ (f.width - 1) ≤ m ∧ m < 2 ^ (f.width - 1)
  else 0 ≤ m ∧ m < 2 ^ f.width

instance (f : FieldFormat) (m : ℤ) : Decidable (f.Holds m) :=
  inferInstanceAs (Decidable (if f.signed = true then -2 ^ (f.width - 1) ≤ m ∧ m < 2 ^ (f.width - 1)
    else 0 ≤ m ∧ m < 2 ^ f.width))

def wrap (f : FieldFormat) (v : ℤ) : ℤ :=
  if f.signed = true then v.bmod (2 ^ f.width) else v % 2 ^ f.width

variable {f : FieldFormat}

theorem two_pow_width (hpos : 0 < f.width) : (2 : ℤ) ^ f.width = 2 * 2 ^ (f.width - 1) :=
  (two_mul_two_pow_pred hpos).symm

theorem wrap_modEq (f : FieldFormat) (v : ℤ) : f.wrap v ≡ v [ZMOD 2 ^ f.width] := by
  unfold wrap
  split
  · have h : v.bmod (2 ^ f.width) ≡ v [ZMOD (2 ^ f.width : ℕ)] := Int.bmod_emod
    simpa using h
  · exact Int.mod_modEq v _

theorem holds_wrap (hpos : 0 < f.width) (v : ℤ) : f.Holds (f.wrap v) := by
  have hpow := two_pow_width hpos
  have hbound : (0 : ℤ) < 2 ^ f.width := by positivity
  unfold Holds wrap
  split
  · have hlow := Int.le_bmod (x := v) (m := 2 ^ f.width) (by positivity)
    have hhigh := Int.bmod_lt (x := v) (m := 2 ^ f.width) (by positivity)
    push_cast at hlow hhigh
    omega
  · exact ⟨Int.emod_nonneg v hbound.ne', Int.emod_lt_of_pos v hbound⟩

theorem Holds.eq_of_modEq (hpos : 0 < f.width) {m n : ℤ} (hm : f.Holds m) (hn : f.Holds n)
    (h : m ≡ n [ZMOD 2 ^ f.width]) : m = n := by
  have hpow := two_pow_width hpos
  have hdist : |n - m| < 2 ^ f.width := by
    rw [abs_lt]
    unfold Holds at hm hn
    by_cases hsigned : f.signed = true
    · rw [if_pos hsigned] at hm hn
      omega
    · rw [if_neg hsigned] at hm hn
      omega
  have hzero := Int.eq_zero_of_abs_lt_dvd h.dvd hdist
  omega

theorem Holds.eq_wrap (hpos : 0 < f.width) {m v : ℤ} (hm : f.Holds m)
    (h : m ≡ v [ZMOD 2 ^ f.width]) : m = f.wrap v :=
  hm.eq_of_modEq hpos (holds_wrap hpos v) (h.trans (f.wrap_modEq v).symm)

theorem wrap_eq_self (hpos : 0 < f.width) {v : ℤ} (hv : f.Holds v) : f.wrap v = v :=
  (hv.eq_wrap hpos rfl).symm

theorem existsUnique_holds (hpos : 0 < f.width) (v : ℤ) :
    ∃! m : ℤ, m ≡ v [ZMOD 2 ^ f.width] ∧ f.Holds m :=
  ⟨f.wrap v, ⟨f.wrap_modEq v, holds_wrap hpos v⟩, fun _ hm => hm.2.eq_wrap hpos hm.1⟩

theorem code_integer (hint : f.isInteger = true) (hne : f ≠ bipolar) {s : Scalar} {w : Word}
    (hs : s = .int w ∨ s = .uint w) : f.code s = w := by
  obtain rfl | rfl := hs
  all_goals
    cases f with
    | uint | int | binary | ternary => rfl
    | fixed | float32 => cases hint
    | bipolar => exact absurd rfl hne

theorem encode_integer (hint : f.isInteger = true) (hne : f ≠ bipolar) {s : Scalar} {w : Word}
    (hs : s = .int w ∨ s = .uint w) :
    f.encode s = (w.setWidth f.width).setWidth 64 := by
  rw [encode_eq_setWidth, code_integer hint hne hs]

theorem decode_integer (hint : f.isInteger = true) (hne : f ≠ bipolar) (field : Word) :
    f.decode field =
      if f.signed = true then .int ((field.setWidth f.width).signExtend 64) else .uint field := by
  cases f with
  | uint | int | binary | ternary => rfl
  | fixed | float32 => cases hint
  | bipolar => exact absurd rfl hne

theorem wrap_eq_toInt_or_toNat (f : FieldFormat) (v : ℤ) :
    f.wrap v = if f.signed = true then (BitVec.ofInt f.width v).toInt
      else ((BitVec.ofInt f.width v).toNat : ℤ) := by
  have hpow : (0 : ℤ) < (2 ^ f.width : ℕ) := by positivity
  rw [wrap, BitVec.toInt_ofInt, BitVec.toNat_ofInt, Int.toNat_of_nonneg (Int.emod_nonneg _ hpow.ne')]
  push_cast
  rfl

theorem ofScalar_decode_encode {t u : HostType} (hf : f.validate = .ok ())
    (hint : f.isInteger = true) (hne : f ≠ bipolar) (ht : t.isInteger = true)
    (hu : u.isInteger = true) (v : t.Value) :
    u.ofScalar (f.decode (f.encode (t.toScalar v))) = BitVec.ofInt u.width (f.wrap (t.toInt v)) := by
  have hw : f.width ≤ 64 := width_le hf
  rw [encode_integer hint hne (HostType.toScalar_integer ht v), setWidth_ofInt hw,
    decode_integer hint hne, wrap_eq_toInt_or_toNat]
  split
  · rw [HostType.ofScalar_int hu, BitVec.setWidth_setWidth_of_le _ hw, BitVec.setWidth_eq]
    exact setWidth_ofInt u.width_le _
  · rw [HostType.ofScalar_uint hu, setWidth_eq_ofInt 64, setWidth_ofInt u.width_le]

theorem ofScalar_decode_encode_bipolar {u : HostType} (hu : u.isInteger = true) (s : Scalar) :
    u.ofScalar (bipolar.decode (bipolar.encode s)) =
      BitVec.ofInt u.width (if s.isPositive = true then 1 else -1) := by
  have hone : (-1 : Word) = BitVec.ofInt 64 (-1) := rfl
  have hbit : (bipolar.encode s).getLsbD 0 = s.isPositive := by
    rw [getLsbD_encode, code]
    cases s.isPositive <;> rfl
  rw [decode, hbit, HostType.ofScalar_int hu]
  cases s.isPositive with
  | true => exact setWidth_ofInt u.width_le 1
  | false => exact setWidth_ofInt u.width_le (-1)

end FieldFormat

end PackedStream
