import PackedStream.Pack
import PackedStream.Tensor

namespace PackedStream

/-- Who fills which slices of a tensor into a buffer, and which buffers are merged. -/
inductive MergeTree where
  | zeros
  | worker (ranges : List (Nat × Nat))
  | merge (left right : MergeTree)
deriving DecidableEq

namespace MergeTree

def ranges : MergeTree → List (Nat × Nat)
  | zeros => []
  | worker ranges => ranges
  | merge left right => left.ranges ++ right.ranges

def halving : Nat → List (Nat × Nat) → MergeTree
  | 0, ranges => worker ranges
  | depth + 1, ranges =>
    if ranges.length ≤ 1 then worker ranges
    else
      let middle := ranges.length / 2
      merge (halving depth (ranges.take middle)) (halving depth (ranges.drop middle))

variable (f : FieldFormat) {t : HostType} (data : Array t.Value)

def writeRange (buffer : BitBuffer) (range : Nat × Nat) : BitBuffer :=
  buffer.writeAll f.width (range.1 * f.width) (f.encodeAll (data.extract range.1 range.2).toList)

def fill : MergeTree → Except StreamError BitBuffer
  | zeros => .ok (BitBuffer.zeros (data.size * f.width))
  | worker ranges => .ok (ranges.foldl (writeRange f data) (BitBuffer.zeros (data.size * f.width)))
  | merge left right => do (← left.fill).merge (← right.fill)

end MergeTree

end PackedStream
