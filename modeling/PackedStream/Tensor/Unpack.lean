import PackedStream.Tensor
import PackedStream.Unpack

namespace PackedStream.FieldFormat

variable (f : FieldFormat)

def tensorCount (bytes : Array UInt8) (padding : Nat) (shape : Shape) (options : PackOptions) :
    Except StreamError Nat := do
  let count ← f.fieldCount bytes padding
  shape.check count
  options.validate
  return count

def unpackTensor (t : HostType) (bytes : Array UInt8) (padding : Nat) (shape : Shape)
    (options : PackOptions := {}) : Except StreamError (List t.Value) := do
  let count ← f.tensorCount bytes padding shape options
  if options.cuts count then
    return (List.range (count / shape.inner)).flatMap fun s =>
      (List.range' (s * shape.inner) shape.inner).map (f.valueAt t bytes)
  else return (List.range count).map (f.valueAt t bytes)

end PackedStream.FieldFormat
