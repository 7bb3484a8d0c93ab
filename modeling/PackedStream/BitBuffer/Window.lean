import PackedStream.BitBuffer
import PackedStream.Fault

/-!
A write as it goes byte by byte through a window of 128 bits. Positions are words here: a number
that leaves them is a fault, and so is an access behind the end.
-/

namespace PackedStream

namespace Bytes

def ofWindow (window : BitVec 128) : List UInt8 :=
  (List.range 16).map fun i => UInt8.ofBitVec (window.extractLsb' (8 * i) 8)

def orAt (bytes : Array UInt8) (i : Nat) (byte : UInt8) : Except Fault (Array UInt8) :=
  if i < bytes.size then .ok (bytes.modify i (· ||| byte)) else .error .outOfBounds

def orWindow (last : Nat) (mask : UInt8) :
    Array UInt8 → Nat → List UInt8 → Except Fault (Array UInt8)
  | bytes, _, [] => .ok bytes
  | bytes, i, byte :: window => do
    let i ← asSize i
    if last < i then return bytes
    else if byte = 0 then orWindow last mask bytes (i + 1) window
    else
      let bytes ← orAt bytes i (if i = last then byte &&& mask else byte)
      orWindow last mask bytes (i + 1) window

end Bytes

namespace BitBuffer

def window (value : Word) (offset : Nat) : BitVec 128 := value.setWidth 128 <<< (offset % 8)

variable (b : BitBuffer)

def lastMask : UInt8 :=
  if b.bitLength % 8 = 0 then 255 else UInt8.ofNat (pow2 (b.bitLength % 8) - 1)

def writeWindow (value : Word) (offset : Nat) : Except Fault BitBuffer :=
  if value = 0 ∨ b.bitLength ≤ offset then .ok b
  else if b.bytes.size = 0 then .error .overflow
  else do
    let bytes ← Bytes.orWindow (b.bytes.size - 1) b.lastMask b.bytes (offset / 8)
      (Bytes.ofWindow (window value offset))
    return { b with bytes }

end BitBuffer

end PackedStream
