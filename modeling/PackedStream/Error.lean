namespace PackedStream

def sizesText (sizes : List Nat) : String :=
  "[" ++ String.intercalate ", " (sizes.map toString) ++ "]"

inductive StreamError where
  | unsupportedWidth (bits : Nat)
  | invalidFixedPoint (bits intBits : Nat)
  | unknownFormat (name : String)
  | emptyInput
  | bitLengthMismatch (bits padding width : Nat)
  | lengthMismatch (expected found : Nat)
  | emptyShape
  | shapeMismatch (shape : List Nat) (elements : Nat)
  | zeroCapacity
  | capacityOverflow (parts partSize : Nat)
  | partSizeMismatch (length partSize : Nat)
  | capacityExceeded (length capacity : Nat)
  | zeroChunk
deriving DecidableEq

def StreamError.message : StreamError → String
  | .unsupportedWidth bits => s!"unsupported bitwidth {bits}, expected 1..=64"
  | .invalidFixedPoint bits intBits =>
    s!"invalid fixed-point format: {intBits} integer bits in {bits} total bits"
  | .unknownFormat name => s!"unknown datatype '{name}'"
  | .emptyInput => "cannot unpack an empty byte sequence"
  | .bitLengthMismatch bits padding width =>
    s!"bit length mismatch: {bits} bits minus {padding} padding bits is not a multiple of bitwidth {width}"
  | .lengthMismatch expected found => s!"length mismatch: expected {expected}, found {found}"
  | .emptyShape => "tensor shape must have at least one dimension"
  | .shapeMismatch shape elements =>
    s!"shape {sizesText shape} does not cover {elements} elements"
  | .zeroCapacity => "ring buffer capacity must be greater than zero"
  | .capacityOverflow parts partSize =>
    s!"ring buffer capacity overflows: {parts} parts x {partSize} elements"
  | .partSizeMismatch length partSize =>
    s!"length {length} is not a multiple of the part size {partSize}"
  | .capacityExceeded length capacity =>
    s!"length {length} exceeds ring buffer capacity {capacity}"
  | .zeroChunk => "invalid option: chunk_elements must be greater than zero"

end PackedStream
