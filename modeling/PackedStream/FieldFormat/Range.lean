import PackedStream.HostType

namespace PackedStream.FieldFormat

open FloatFormat (binary32 binary64)

def least : FieldFormat → Word
  | uint _ | binary => binary64.ofInt 0
  | int bits => binary64.ofDyadic (-(pow2 bits : Int)) 1
  | fixed _ intBits => binary64.ofDyadic (-(pow2 intBits : Int)) 1
  | float32 => binary32.convert binary64 (binary32.join true (binary32.infinity - 1) : BitVec 32)
  | ternary | bipolar => binary64.ofInt (-1)

def greatest : FieldFormat → Word
  | uint bits => binary64.ofInt ((pow2 bits : Int) - 1)
  | int bits => binary64.ofDyadic ((pow2 bits : Int) - 2) 1
  | f@(fixed _ intBits) =>
    binary64.ofDyadic ((pow2 (intBits + f.fracBits) : Int) - 2) (f.fracBits + 1)
  | float32 => binary32.convert binary64 (binary32.join false (binary32.infinity - 1) : BitVec 32)
  | binary | ternary | bipolar => binary64.ofInt 1

def represents (f : FieldFormat) (x : Word) : Bool :=
  binary64.le f.least x && binary64.le x f.greatest &&
    match f with
    | float32 => true
    | bipolar => x == binary64.ofInt (-1) || x == binary64.ofInt 1
    | fixed .. => binary64.isIntegral (binary64.scaleUp f.fracBits x)
    | _ => binary64.isIntegral x

def hostType : FieldFormat → HostType
  | uint bits =>
    if bits ≤ 8 then .u8 else if bits ≤ 16 then .u16 else if bits ≤ 32 then .u32 else .u64
  | int bits =>
    if bits ≤ 8 then .i8 else if bits ≤ 16 then .i16 else if bits ≤ 32 then .i32 else .i64
  | fixed bits _ => if bits ≤ 24 then .f32 else .f64
  | float32 => .f32
  | binary => .u8
  | ternary | bipolar => .i8

end PackedStream.FieldFormat
