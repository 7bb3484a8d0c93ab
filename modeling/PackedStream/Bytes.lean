import PackedStream.FieldFormat

namespace PackedStream.Bytes

def byteAt (bytes : Array UInt8) (i : Nat) : UInt8 := bytes[i]?.getD 0

/-- Bit `k`, counted from the low end of the first byte. -/
def bit (bytes : Array UInt8) (k : Nat) : Bool := (byteAt bytes (k / 8)).toNat.testBit (k % 8)

def number (bytes : Array UInt8) (first : Nat) : Nat → Nat
  | 0 => 0
  | count + 1 => (byteAt bytes first).toNat + 256 * number bytes (first + 1) count

def field (bytes : Array UInt8) (offset width : Nat) : Word :=
  BitVec.ofNat 64 (number bytes (offset / 8) 9 >>> (offset % 8) % pow2 width)

def orNumber (bytes : Array UInt8) (first value : Nat) : Nat → Array UInt8
  | 0 => bytes
  | count + 1 =>
    orNumber (bytes.modify first (· ||| UInt8.ofNat value)) (first + 1) (value / 256) count

end PackedStream.Bytes
