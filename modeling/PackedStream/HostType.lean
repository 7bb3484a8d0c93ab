import PackedStream.FieldFormat
import PackedStream.FloatFormat.Nearest

namespace PackedStream

open FloatFormat (binary32 binary64)

inductive HostType where
  | u8 | u16 | u32 | u64
  | i8 | i16 | i32 | i64
  | f32 | f64
deriving DecidableEq

inductive Scalar where
  | int (word : Word)
  | uint (word : Word)
  | float (pattern : Word)
deriving DecidableEq

namespace Scalar

def isPositive : Scalar → Bool
  | int w => 0 < w.toInt
  | uint w => 0 < w.toNat
  | float x => binary64.isPositive x

def toBinary32 : Scalar → BitVec 32
  | int w => binary32.ofInt w.toInt
  | uint w => binary32.ofInt w.toNat
  | float x => binary64.convert binary32 x

def toBinary64 : Scalar → BitVec 64
  | int w => binary64.ofInt w.toInt
  | uint w => binary64.ofInt w.toNat
  | float x => x

def toInteger (width : Nat) (low high : Int) : Scalar → BitVec width
  | int w | uint w => w.setWidth width
  | float x => BitVec.ofInt width (binary64.truncateWithin x low high)

def toUnsigned (width : Nat) (s : Scalar) : BitVec width :=
  s.toInteger width 0 ((pow2 width : Int) - 1)

def toSigned (width : Nat) (s : Scalar) : BitVec width :=
  s.toInteger width (-(pow2 (width - 1) : Int)) ((pow2 (width - 1) : Int) - 1)

def codeOfFloat (x : Word) : Word :=
  if binary64.isNegative x then (float x).toSigned 64 else (float x).toUnsigned 64

end Scalar

namespace HostType

def width : HostType → Nat
  | u8 | i8 => 8
  | u16 | i16 => 16
  | u32 | i32 | f32 => 32
  | u64 | i64 | f64 => 64

abbrev Value (t : HostType) : Type := BitVec t.width

def name : HostType → String
  | u8 => "U8" | u16 => "U16" | u32 => "U32" | u64 => "U64"
  | i8 => "I8" | i16 => "I16" | i32 => "I32" | i64 => "I64"
  | f32 => "F32" | f64 => "F64"

def toScalar : (t : HostType) → t.Value → Scalar
  | u8, v | u16, v | u32, v => .int (BitVec.setWidth 64 v)
  | u64, v => .uint v
  | i8, v | i16, v | i32, v | i64, v => .int (BitVec.signExtend 64 v)
  | f32, v => .float (binary32.convert binary64 v)
  | f64, v => .float v

def ofScalar : (t : HostType) → Scalar → t.Value
  | u8, s => s.toUnsigned 8
  | u16, s => s.toUnsigned 16
  | u32, s => s.toUnsigned 32
  | u64, s => s.toUnsigned 64
  | i8, s => s.toSigned 8
  | i16, s => s.toSigned 16
  | i32, s => s.toSigned 32
  | i64, s => s.toSigned 64
  | f32, s => s.toBinary32
  | f64, s => s.toBinary64

def toBytes? : (t : HostType) → List t.Value → Option (Array UInt8)
  | u8, vs => some (vs.map UInt8.ofBitVec).toArray
  | _, _ => none

def ofBytes? : (t : HostType) → Array UInt8 → Option (List t.Value)
  | u8, bytes => some (bytes.toList.map UInt8.toBitVec)
  | _, _ => none

end HostType

structure HostValues where
  type : HostType
  values : List type.Value

end PackedStream
