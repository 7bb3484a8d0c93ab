import PackedStream.Decimal
import PackedStream.FloatFormat

namespace PackedStream

open Text

namespace FloatFormat

variable (F : FloatFormat)

def roundingInterval (magnitude : Nat) : Nat × Nat × Nat :=
  let u := F.units magnitude
  (F.units (magnitude - 1) + u, 2 * u, u + F.units (magnitude + 1))

def onGrid? (magnitude : Nat) (k : Int) : Option Decimal :=
  let (low, value, high) := F.roundingInterval magnitude
  let step := pow2 (F.unitShift + 1) * pow10 k.toNat
  let unit := pow10 (-k).toNat
  let hits (n : Nat) : Bool :=
    if magnitude % 2 = 0 then low * unit ≤ n * step && n * step ≤ high * unit
    else low * unit < n * step && n * step < high * unit
  let below := value * unit / step
  if hits (below + 1) && (!hits below || step ≤ 2 * (value * unit % step)) then some ⟨below + 1, k⟩
  else if hits below then some ⟨below, k⟩
  else none

def searchGrids (magnitude : Nat) : Nat → Int → Decimal
  | 0, k => ⟨F.units magnitude * pow10 (-k).toNat / (pow2 F.unitShift * pow10 k.toNat), k⟩
  | fuel + 1, k => (F.onGrid? magnitude k).getD (searchGrids magnitude fuel (k - 1))

def shortest (magnitude : Nat) : Decimal :=
  let log2 : Int := (F.units magnitude).log2 - F.unitShift
  (F.searchGrids magnitude 24 ((log2 + 1) * 30103 / 100000 + 1)).stripZeros 24

def text {w : Nat} (x : BitVec w) : String :=
  let m := F.magnitude x
  let sign := if F.negative x then ['-'] else []
  String.ofList <|
    if F.isNaN x then "NaN".toList
    else if F.isFinite x then sign ++ (if m = 0 then ['0'] else (F.shortest m).plain)
    else sign ++ "inf".toList

end FloatFormat

end PackedStream
