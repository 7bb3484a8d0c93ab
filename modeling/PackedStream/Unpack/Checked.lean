import PackedStream.Tensor.Unpack
import PackedStream.Tensor.View

/-!
Unpacking as it runs, in the arithmetic of words. A number that leaves the sizes is a fault, and so
is a difference below zero, a division by zero, a shift by the width of a word and an access behind
the end. A field is read through a window of 16 bytes.
-/

namespace PackedStream.Checked

open FloatFormat (binary64)

def sub (m n : Nat) : Except Fault Nat := if n ≤ m then .ok (m - n) else .error .overflow

def div (m n : Nat) : Except Fault Nat := if n = 0 then .error .divisionByZero else .ok (m / n)

def mod (m n : Nat) : Except Fault Nat := if n = 0 then .error .divisionByZero else .ok (m % n)

def shiftLeft {w : Nat} (x : BitVec w) (n : Nat) : Except Fault (BitVec w) :=
  if n < w then .ok (x <<< n) else .error .overflow

def shiftRight {w : Nat} (x : BitVec w) (n : Nat) : Except Fault (BitVec w) :=
  if n < w then .ok (x >>> n) else .error .overflow

def slice (bytes : Array UInt8) (first last : Nat) : Except Fault (Array UInt8) :=
  if first ≤ last ∧ last ≤ bytes.size then .ok (bytes.extract first last) else .error .outOfBounds

def lowBits (n : Nat) : Except Fault Word := do
  let bit ← shiftLeft (1 : Word) n
  return BitVec.ofNat 64 (← sub bit.toNat 1)

def window (count : Nat) (bytes : Array UInt8) : Except Fault (BitVec 128) :=
  if count ≤ 16 ∧ bytes.size = count then .ok (BitVec.ofNat 128 (Bytes.number bytes 0 16))
  else .error .outOfBounds

def load (bytes : Array UInt8) (first last : Nat) : Except Fault (BitVec 128) :=
  if first < last then do window (← sub last first) (← slice bytes first last) else .ok 0

def field (bytes : Array UInt8) (offset width : Nat) : Except Fault Word := do
  let first := offset / 8
  let shift := offset % 8
  let needed := ((← asSize (shift + width)) + 7) / 8
  let last := min (← asSize (first + needed)) bytes.size
  let value := (← shiftRight (← load bytes first last) shift).setWidth 64
  if 64 ≤ width then return value else return value &&& (← lowBits width)

def signExtend (field : Word) (width : Nat) : Except Fault Word := do
  if 64 ≤ width then return field
  let sign ← shiftLeft (1 : Word) (← sub width 1)
  if field &&& sign = 0 then return field else return field ||| ~~~ (← lowBits width)

variable (f : FieldFormat)

def decode (field : Word) : Except Fault Scalar :=
  match f with
  | .float32 | .bipolar => .ok (f.decode field)
  | .fixed .. => do
    let code ← signExtend field f.width
    return .float (binary64.scaleDown f.fracBits (binary64.ofInt code.toInt))
  | _ => if f.signed then do return .int (← signExtend field f.width) else .ok (.uint field)

def valueAt (t : HostType) (bytes : Array UInt8) (i : Nat) : Except Fault t.Value := do
  let offset ← asSize (i * f.width)
  return t.ofScalar (← decode f (← field bytes offset f.width))

def fits (bits padding : Nat) : Except Fault Bool :=
  if bits < padding then .ok false else do return (← mod (← sub bits padding) f.width) = 0

def fieldCount (bytes : Array UInt8) (padding : Nat) : Except Fault Nat := do
  if bytes.isEmpty then throw (.refused .emptyInput)
  f.validate.mapError .refused
  let bits ← asSize (bytes.size * 8)
  if ← fits f bits padding then div (← sub bits padding) f.width
  else throw (.refused (.bitLengthMismatch bits padding f.width))

def roundedChunk (o : PackOptions) : Except Fault Nat := asSize ((max o.chunk 1 + 7) / 8 * 8)

def cuts (o : PackOptions) (count : Nat) : Except Fault Bool :=
  if o.threshold ≤ count then do return (← roundedChunk o) < count else .ok false

def copy? (t : HostType) (bytes : Array UInt8) (count : Nat) :
    Except Fault (Option (List t.Value)) :=
  if f.width = 8 ∧ f.isInteger then do return t.ofBytes? (← slice bytes 0 count) else .ok none

def unpackPlan (t : HostType) (bytes : Array UInt8) (padding : Nat) (options : PackOptions) :
    Except Fault (UnpackPlan t) := do
  let count ← fieldCount f bytes padding
  options.validate.mapError .refused
  match ← copy? f t bytes count with
  | some values => return .copy values
  | none =>
    if ← cuts options count then return .chunks count (← roundedChunk options)
    else return .whole count

def runUnpack {t : HostType} (bytes : Array UInt8) : UnpackPlan t → Except Fault (List t.Value)
  | .copy values => .ok values
  | .whole count => (List.range count).mapM (valueAt f t bytes)
  | .chunks count size => do
    let values ← (pieces (max size 1) (List.range count)).mapM fun piece =>
      piece.mapM (valueAt f t bytes)
    return values.flatten

def unpack (t : HostType) (bytes : Array UInt8) (padding : Nat) (options : PackOptions := {}) :
    Except Fault (List t.Value) := do
  runUnpack f bytes (← unpackPlan f t bytes padding options)

def unpackEvents (t : HostType) (bytes : Array UInt8) (padding : Nat)
    (options : PackOptions := {}) : List Event :=
  match unpackPlan f t bytes padding options with
  | .ok (.chunks count _) => [.unpackedInChunks f count]
  | _ => []

def unpackTensorPlan (bytes : Array UInt8) (padding : Nat) (shape : Shape)
    (options : PackOptions) : Except Fault (Nat × Bool) := do
  let count ← fieldCount f bytes padding
  (shape.check count).mapError .refused
  options.validate.mapError .refused
  return (count, ← cuts options count)

def unpackTensor (t : HostType) (bytes : Array UInt8) (padding : Nat) (shape : Shape)
    (options : PackOptions := {}) : Except Fault (List t.Value) := do
  let (count, sliced) ← unpackTensorPlan f bytes padding shape options
  if sliced then
    let values ← (← shape.rangesOf count).mapM fun r =>
      (List.range' r.1 (r.2 - r.1)).mapM (valueAt f t bytes)
    return values.flatten
  else (List.range count).mapM (valueAt f t bytes)

def unpackTensorEvents (bytes : Array UInt8) (padding : Nat) (shape : Shape)
    (options : PackOptions := {}) : List Event :=
  match unpackTensorPlan f bytes padding shape options with
  | .ok (count, true) => [.unpackedSlices f (count / shape.inner) shape.inner]
  | _ => []

def unpackHost (bytes : Array UInt8) (padding : Nat) : Except Fault HostValues := do
  return ⟨f.hostType, ← unpack f f.hostType bytes padding⟩

def unpackHostEvents (bytes : Array UInt8) (padding : Nat) : List Event :=
  unpackEvents f f.hostType bytes padding

end PackedStream.Checked
