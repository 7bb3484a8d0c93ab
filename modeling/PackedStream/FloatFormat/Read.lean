import PackedStream.Decimal
import PackedStream.FloatFormat.Nearest

namespace PackedStream.FloatFormat

open Text

variable (F : FloatFormat)

def ofDecimal {w : Nat} (negative : Bool) (d : Decimal) : BitVec w :=
  let top := (natChars d.digits).length + d.exponent
  let unit := pow2 F.unitShift
  F.join negative <|
    if d.digits = 0 ∨ top < -(F.unitShift : Int) then 0
    else if (pow2 F.exponentBits : Int) < top then F.infinity
    else F.nearest (d.digits * pow10 d.exponent.toNat * unit) (pow10 (-d.exponent).toNat)

def readMagnitude? {w : Nat} (negative : Bool) (cs : List Char) : Option (BitVec w) :=
  let name := cs.map Char.toLower
  if name = "inf".toList ∨ name = "infinity".toList then some (F.join negative F.infinity)
  else if name = "nan".toList then
    some (F.join negative (F.infinity + pow2 (F.fractionBits - 1)))
  else (Decimal.read? cs).map (F.ofDecimal negative)

def read? {w : Nat} : List Char → Option (BitVec w)
  | '-' :: cs => F.readMagnitude? true cs
  | '+' :: cs => F.readMagnitude? false cs
  | cs => F.readMagnitude? false cs

end PackedStream.FloatFormat
