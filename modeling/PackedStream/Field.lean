import PackedStream.HostType

namespace PackedStream.FieldFormat

open FloatFormat (binary32 binary64)

def code (f : FieldFormat) (s : Scalar) : Word :=
  match f, s with
  | float32, s => s.toBinary32.setWidth 64
  | bipolar, s => if s.isPositive then 1 else 0
  | fixed .., .int w | fixed .., .uint w => w <<< f.fracBits
  | fixed .., .float x => Scalar.codeOfFloat (binary64.scaleUp f.fracBits x)
  | _, .int w | _, .uint w => w
  | _, .float x => Scalar.codeOfFloat x

def encode (f : FieldFormat) (s : Scalar) : Word := f.code s &&& f.mask

def signedWord (f : FieldFormat) (field : Word) : Word := (field.setWidth f.width).signExtend 64

def decode (f : FieldFormat) (field : Word) : Scalar :=
  match f with
  | float32 => .float (binary32.convert binary64 (field.setWidth 32))
  | bipolar => .int (if field.getLsbD 0 then 1 else -1)
  | fixed .. => .float (binary64.scaleDown f.fracBits (binary64.ofInt (f.signedWord field).toInt))
  | _ => if f.signed then .int (f.signedWord field) else .uint field

end PackedStream.FieldFormat
