import PackedStream.FieldFormat.Range
import PackedStream.Pack

namespace PackedStream

inductive UnpackPlan (t : HostType) where
  | copy (values : List t.Value)
  | whole (count : Nat)
  | chunks (count size : Nat)

namespace FieldFormat

variable (f : FieldFormat)

def fieldCount (bytes : Array UInt8) (padding : Nat) : Except StreamError Nat := do
  if bytes.isEmpty then throw .emptyInput
  f.validate
  let bits := bytes.size * 8
  if bits < padding ∨ (bits - padding) % f.width ≠ 0 then
    throw (.bitLengthMismatch bits padding f.width)
  return (bits - padding) / f.width

def valueAt (t : HostType) (bytes : Array UInt8) (i : Nat) : t.Value :=
  t.ofScalar (f.decode (Bytes.field bytes (i * f.width) f.width))

def unpackPlan (t : HostType) (bytes : Array UInt8) (padding : Nat) (options : PackOptions) :
    Except StreamError (UnpackPlan t) := do
  let count ← f.fieldCount bytes padding
  options.validate
  match if f.width = 8 ∧ f.isInteger then t.ofBytes? (bytes.extract 0 count) else none with
  | some values => return .copy values
  | none => return if options.cuts count then .chunks count options.roundedChunk else .whole count

def runUnpack {t : HostType} (bytes : Array UInt8) : UnpackPlan t → List t.Value
  | .copy values => values
  | .whole count => (List.range count).map (f.valueAt t bytes)
  | .chunks count size =>
    (pieces (max size 1) (List.range count)).flatMap fun piece => piece.map (f.valueAt t bytes)

def unpack (t : HostType) (bytes : Array UInt8) (padding : Nat) (options : PackOptions := {}) :
    Except StreamError (List t.Value) :=
  (f.unpackPlan t bytes padding options).map (f.runUnpack bytes)

def unpackHost (bytes : Array UInt8) (padding : Nat) : Except StreamError HostValues :=
  (f.unpack f.hostType bytes padding).map fun values => ⟨f.hostType, values⟩

end FieldFormat

end PackedStream
