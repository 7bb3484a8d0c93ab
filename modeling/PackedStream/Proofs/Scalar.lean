import PackedStream.HostType
import PackedStream.Proofs.FloatFormat.Truncated

namespace PackedStream

open FloatFormat (binary32 binary64)

namespace Scalar

def value : Scalar → ℚ
  | int w => w.toInt
  | uint w => w.toNat
  | float x => binary64.value x

@[simp]
theorem value_int (w : Word) : (int w).value = w.toInt := rfl

@[simp]
theorem value_uint (w : Word) : (uint w).value = w.toNat := rfl

@[simp]
theorem value_float (x : Word) : (float x).value = binary64.value x := rfl

theorem codeOfFloat_finite {x : Word} (hx : binary64.isFinite x = true) :
    codeOfFloat x = BitVec.ofInt 64 (max (-2 ^ 63) (min (2 ^ 64 - 1) (binary64.integerPart x))) := by
  have hlow : ((pow2 63 : ℕ) : ℤ) = 2 ^ 63 := rfl
  have hhigh : ((pow2 64 : ℕ) : ℤ) = 2 ^ 64 := rfl
  rw [codeOfFloat]
  split
  case isTrue h =>
    have hneg := FloatFormat.integerPart_nonpos ((FloatFormat.isNegative_iff hx).mp h).le
    rw [toSigned, toInteger, FloatFormat.truncateWithin_finite hx, hlow]
    congr 1
    omega
  case isFalse h =>
    have hpos := FloatFormat.integerPart_nonneg (not_lt.mp (mt (FloatFormat.isNegative_iff hx).mpr h))
    rw [toUnsigned, toInteger, FloatFormat.truncateWithin_finite hx, hhigh]
    congr 1
    omega

theorem codeOfFloat_truncated {x : Word} (hx : binary64.isFinite x = true) : codeOfFloat x =
    BitVec.ofInt 64 (max (-2 ^ 63) (min (2 ^ 64 - 1) (truncated (binary64.value x)))) := by
  rw [codeOfFloat_finite hx, FloatFormat.integerPart_eq_truncated]

end Scalar

end PackedStream
