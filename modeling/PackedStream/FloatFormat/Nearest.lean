import PackedStream.FloatFormat

namespace PackedStream

def roundHalfEven (num den : Nat) : Nat :=
  let q := num / den
  let r := num % den
  if 2 * r < den ∨ (2 * r = den ∧ q % 2 = 0) then q else q + 1

namespace FloatFormat

variable (F : FloatFormat)

/--
The magnitude nearest to `num / den` units, a half to the even one; infinity beyond the range.
With `s` the number of bits that do not fit, it counts `s` full binades and the steps behind them.
-/
def nearest (num den : Nat) : Nat :=
  let s := (num / den).log2 - F.fractionBits
  min F.infinity (s * pow2 F.fractionBits + roundHalfEven num (den * pow2 s))

variable {w : Nat}

def ofDyadic (n : Int) (k : Nat) : BitVec w :=
  F.join (n < 0) (F.nearest (n.natAbs * pow2 F.unitShift) (pow2 k))

def ofInt (n : Int) : BitVec w := F.ofDyadic n 0

def scaleUp (k : Nat) (x : BitVec w) : BitVec w :=
  if F.isFinite x then F.join (F.negative x) (F.nearest (F.units (F.magnitude x) * pow2 k) 1) else x

def scaleDown (k : Nat) (x : BitVec w) : BitVec w :=
  if F.isFinite x then F.join (F.negative x) (F.nearest (F.units (F.magnitude x)) (pow2 k)) else x

def quietFraction (G : FloatFormat) (payload : Nat) : Nat :=
  (payload * pow2 G.fractionBits / pow2 F.fractionBits) ||| pow2 (G.fractionBits - 1)

def convert (G : FloatFormat) {v : Nat} (x : BitVec w) : BitVec v :=
  let m := F.magnitude x
  G.join (F.negative x) <|
    if F.isNaN x then G.infinity + F.quietFraction G (m - F.infinity)
    else if F.isFinite x then G.nearest (F.units m * pow2 G.unitShift) (pow2 F.unitShift)
    else G.infinity

end FloatFormat

end PackedStream
