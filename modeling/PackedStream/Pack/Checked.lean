import PackedStream.BitBuffer.Window
import PackedStream.Tensor.Pack
import PackedStream.Unpack.Checked

/-!
Packing as it runs, in the arithmetic of words, value by value and piece by piece.
-/

namespace PackedStream.Checked

/-- The pieces of a list. To number them, its length is divided by theirs. -/
def cut {α : Type} (n : Nat) (xs : List α) : Except Fault (List (List α)) :=
  if n = 0 then .error .divisionByZero else .ok (pieces n xs)

variable (f : FieldFormat) {t : HostType}

def byteCount (count : Nat) : Except Fault Nat := do
  let bytes := ((← asSize (count * f.width)) + 7) / 8
  let _ ← asSize (bytes * 8)
  return bytes

def writeAll (b : BitBuffer) (i : Nat) : List t.Value → Except Fault BitBuffer
  | [] => .ok b
  | v :: vs => do
    let offset ← asSize (i * f.width)
    writeAll (← b.writeWindow (f.encode (t.toScalar v)) offset) (i + 1) vs

def buffer (values : List t.Value) : Except Fault BitBuffer := do
  let bits ← asSize (values.length * f.width)
  writeAll f (.zeros bits) 0 values

/--
Copies the bytes of each run of values over a piece, which has to be of their length. What is behind
the last run stays as it is.
-/
def fillPieces : List (List UInt8) → List (List t.Value) → Except Fault (List UInt8)
  | piece :: rest, values :: runs => do
    let bytes := (← buffer f values).bytes
    if bytes.size = piece.length then return bytes.toList ++ (← fillPieces rest runs)
    else .error .outOfBounds
  | rest, _ => .ok rest.flatten

def packPlan (values : List t.Value) (options : PackOptions) : Except Fault PackPlan := do
  f.validate.mapError .refused
  options.validate.mapError .refused
  match if f.width = 8 ∧ f.isInteger then t.toBytes? values else none with
  | some bytes => return .copy bytes
  | none =>
    if ← cuts options values.length then return .chunks (← roundedChunk options) else return .whole

def runPack (values : List t.Value) : PackPlan → Except Fault (Array UInt8)
  | .copy bytes => .ok bytes
  | .whole => do return (← buffer f values).bytes
  | .chunks size => do
    let step ← asSize (size / 8 * f.width)
    let total ← byteCount f values.length
    let output ← cut step (List.replicate total 0)
    return (← fillPieces f output (← cut size values)).toArray

def pack (values : List t.Value) (options : PackOptions := {}) : Except Fault (Array UInt8) := do
  runPack f values (← packPlan f values options)

def packEvents (values : List t.Value) (options : PackOptions := {}) : List Event :=
  match packPlan f values options with
  | .ok (.chunks size) => [.packedInChunks f values.length size]
  | _ => []

def fill (data : Array t.Value) : MergeTree → Except Fault BitBuffer
  | .zeros => do return .zeros (← asSize (data.size * f.width))
  | .worker ranges => do
    let bits ← asSize (data.size * f.width)
    ranges.foldlM (fun b r => writeAll f b r.1 (data.extract r.1 r.2).toList) (.zeros bits)
  | .merge left right => do
    let b ← fill data left
    (b.merge (← fill data right)).mapError .refused

variable (x : Tensor t.Value)

def packTensorPlan (options : PackOptions) : Except Fault TensorPlan := do
  f.validate.mapError .refused
  options.validate.mapError .refused
  if ← cuts options x.data.size then
    if (← asSize (x.inner * f.width)) % 8 = 0 then return .aligned else return .merged
  else return .whole

def runPackTensor (tree : MergeTree) : TensorPlan → Except Fault (Array UInt8)
  | .whole => do return (← buffer f x.data.toList).bytes
  | .aligned => do
    let bits ← asSize (x.inner * f.width)
    let total ← byteCount f x.data.size
    let output ← cut (bits / 8) (List.replicate total 0)
    return (← fillPieces f output (x.slices.map Array.toList)).toArray
  | .merged => do return (← fill f x.data tree).bytes

def packTensor (options : PackOptions := {}) (tree : MergeTree := .halving 3 x.ranges) :
    Except Fault (Array UInt8) := do
  runPackTensor f x tree (← packTensorPlan f x options)

def packTensorEvents (options : PackOptions := {}) : List Event :=
  match packTensorPlan f x options with
  | .ok .aligned => [.packedAlignedSlices f x.ranges.length]
  | .ok .merged => [.packedMergedSlices f x.ranges.length]
  | _ => []

end PackedStream.Checked
