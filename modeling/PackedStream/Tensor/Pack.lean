import PackedStream.Tensor.MergeTree

namespace PackedStream

inductive TensorPlan where
  | whole
  | aligned
  | merged
deriving DecidableEq

namespace Tensor

variable (f : FieldFormat) {t : HostType} (x : Tensor t.Value)

def packPlan (options : PackOptions) : Except StreamError TensorPlan := do
  f.validate
  options.validate
  return if !options.cuts x.data.size then .whole
    else if x.inner * f.width % 8 = 0 then .aligned
    else .merged

def sliceBlocks : List (Nat × Array UInt8) :=
  x.slices.mapIdx fun i slice => (i * (x.inner * f.width / 8), (f.buffer slice.toList).bytes)

def runPack : TensorPlan → Except StreamError (Array UInt8)
  | .whole => .ok (f.buffer x.data.toList).bytes
  | .aligned => .ok (placeAll (Array.replicate (f.packedLength x.data.size).1 0) (x.sliceBlocks f))
  | .merged => ((MergeTree.halving 3 x.ranges).fill f x.data).map (·.bytes)

def pack (options : PackOptions := {}) : Except StreamError (Array UInt8) := do
  x.runPack f (← x.packPlan f options)

end Tensor

end PackedStream
