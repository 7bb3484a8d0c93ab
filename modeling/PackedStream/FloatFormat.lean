import PackedStream.Power

namespace PackedStream

structure FloatFormat where
  fractionBits : Nat
  exponentBits : Nat
deriving DecidableEq

namespace FloatFormat

def binary32 : FloatFormat := ⟨23, 8⟩

def binary64 : FloatFormat := ⟨52, 11⟩

variable (F : FloatFormat)

def magnitudeBits : Nat := F.exponentBits + F.fractionBits

/-- Every finite value is a multiple of the least positive one, the unit `2 ^ -F.unitShift`. -/
def unitShift : Nat := pow2 (F.exponentBits - 1) + F.fractionBits - 2

def infinity : Nat := (pow2 F.exponentBits - 1) * pow2 F.fractionBits

section Pattern

variable {w : Nat} (x y : BitVec w)

def negative : Bool := x.getLsbD F.magnitudeBits

def magnitude : Nat := x.toNat % pow2 F.magnitudeBits

def join (negative : Bool) (magnitude : Nat) : BitVec w :=
  BitVec.ofNat w ((if negative then pow2 F.magnitudeBits else 0) + magnitude)

def isNaN : Bool := F.infinity < F.magnitude x

def isFinite : Bool := F.magnitude x < F.infinity

def rank : Int := if F.negative x then -(F.magnitude x : Int) else F.magnitude x

def le : Bool := !F.isNaN x && !F.isNaN y && decide (F.rank x ≤ F.rank y)

def isNegative : Bool := !F.isNaN x && decide (F.rank x < 0)

def isPositive : Bool := !F.isNaN x && decide (0 < F.rank x)

end Pattern

def units (magnitude : Nat) : Nat :=
  let exponent := magnitude / pow2 F.fractionBits
  if exponent = 0 then magnitude
  else (pow2 F.fractionBits + magnitude % pow2 F.fractionBits) * pow2 (exponent - 1)

section Integers

variable {w : Nat} (x : BitVec w)

def isIntegral : Bool := F.isFinite x && F.units (F.magnitude x) % pow2 F.unitShift == 0

def integerPart : Int :=
  let n := F.units (F.magnitude x) / pow2 F.unitShift
  if F.negative x then -(n : Int) else n

def truncateWithin (low high : Int) : Int :=
  if F.isNaN x then 0
  else if F.isFinite x then max low (min high (F.integerPart x))
  else if F.negative x then low
  else high

end Integers

end FloatFormat

end PackedStream
