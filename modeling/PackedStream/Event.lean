import PackedStream.FieldFormat.Text

namespace PackedStream

inductive Event where
  | packedInChunks (format : FieldFormat) (count chunk : Nat)
  | unpackedInChunks (format : FieldFormat) (count : Nat)
  | packedAlignedSlices (format : FieldFormat) (slices : Nat)
  | packedMergedSlices (format : FieldFormat) (slices : Nat)
  | unpackedSlices (format : FieldFormat) (slices inner : Nat)
  | shaped (shape : List Nat) (slices inner : Nat)
  | ringMade (parts partSize : Nat)
  | storeRefused (parts free : Nat)
deriving DecidableEq

inductive Event.Level where
  | debug
  | trace
deriving DecidableEq

namespace Event

def level : Event → Level
  | shaped .. | ringMade .. => .debug
  | _ => .trace

def message : Event → String
  | packedInChunks f count chunk =>
    s!"pack {f.text}: {count} values in parallel chunks of {chunk}"
  | unpackedInChunks f count => s!"unpack {f.text}: {count} values in parallel"
  | packedAlignedSlices f slices => s!"pack_tensor {f.text}: {slices} byte-aligned slices"
  | packedMergedSlices f slices => s!"pack_tensor {f.text}: {slices} unaligned slices, merging"
  | unpackedSlices f slices inner => s!"unpack_tensor {f.text}: {slices} slices of {inner}"
  | shaped shape slices inner =>
    s!"TensorView: shape {sizesText shape}, {slices} innermost slices of {inner}"
  | ringMade parts partSize => s!"RingBuffer: {parts} parts x {partSize} elements"
  | storeRefused parts free => s!"RingBuffer: store of {parts} parts refused, {free} free"

def Level.name : Level → String
  | debug => "DEBUG"
  | trace => "TRACE"

def line (e : Event) : String := s!"{e.level.name} {e.message}"

end Event

end PackedStream
