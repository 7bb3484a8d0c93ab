import PackedStream.Bytes

namespace PackedStream

structure BitBuffer where
  bytes : Array UInt8
  bitLength : Nat
deriving DecidableEq

namespace BitBuffer

def zeros (bitLength : Nat) : BitBuffer := ⟨Array.replicate ((bitLength + 7) / 8) 0, bitLength⟩

variable (b : BitBuffer)

def get (n : Nat) : Bool := n < b.bitLength && Bytes.bit b.bytes n

def set (n : Nat) : BitBuffer :=
  if n < b.bitLength then
    { b with bytes := b.bytes.modify (n / 8) (· ||| UInt8.ofNat (pow2 (n % 8))) }
  else b

/--
Ors a word into the bits from `offset` on. What would land beyond the capacity is cut off first,
so that the nine bytes which the rest can touch may be changed as a whole.
-/
def write (value : Word) (offset : Nat) : BitBuffer :=
  if offset < b.bitLength then
    let kept := value.toNat % pow2 (min 64 (b.bitLength - offset))
    { b with bytes := Bytes.orNumber b.bytes (offset / 8) (kept <<< (offset % 8)) 9 }
  else b

def writeAll (width : Nat) (b : BitBuffer) (offset : Nat) : List Word → BitBuffer
  | [] => b
  | v :: vs => writeAll width (b.write v offset) (offset + width) vs

def merge (other : BitBuffer) : Except StreamError BitBuffer :=
  if b.bytes.size = other.bytes.size then
    .ok { b with bytes := Array.zipWith (· ||| ·) b.bytes other.bytes }
  else .error (.lengthMismatch b.bytes.size other.bytes.size)

def text : String :=
  String.ofList ((List.range b.bitLength).reverse.map fun n => if b.get n then '1' else '0')

end BitBuffer

end PackedStream
